import LinuxServer.Counting.Basic
import LinuxServer.ThreadPool.Basic
import Mathlib.Data.Fintype.Sum

/-!
# Requests and wake-ups

* `Moves s l s'`: what a step can do, one case for each line of `append` and `run`.
* `Accounts s`: every accepted request is taken once or in the queue, in the order of `append`.
* `Awake`, `Unposted`: the threads that still owe the queue a look or the semaphore a post.

`workQueue_eq_of_holds`: a thread between `lock` and `unlock` has the queue for itself.
`accounts_of_reachable`: in every interleaving no request and no wake-up is lost.
-/

namespace LinuxServer

namespace ThreadPool

open Counting

variable {W A T : Type*} [DecidableEq W] [DecidableEq A] {s s' : Pool W A T} {l : Action W A T}
  {stop : Bool → Prop}

/-- What a step can do. -/
inductive Moves (s : Pool W A T) : Action W A T → Pool W A T → Prop where
  | call {a request} : s.appender a = .idle →
      Moves s (.call a request) (s.moveAppender a (.locking request))
  | lockWorker {w} : s.worker w = .locking → s.queueLocker = none →
      Moves s (.lock (.inl w)) { s.moveWorker w .taking with queueLocker := some (.inl w) }
  | lockAppender {a request} : s.appender a = .locking request → s.queueLocker = none →
      Moves s (.lock (.inr a))
        { s.moveAppender a (.pushing request) with queueLocker := some (.inr a) }
  | refuse {a request} : s.appender a = .pushing request →
      s.maxRequest < s.workQueue.length → Moves s (.push a) (s.moveAppender a (.unlocking false))
  | accept {a request} : s.appender a = .pushing request →
      s.workQueue.length ≤ s.maxRequest →
      Moves s (.push a) { s.moveAppender a (.unlocking true) with
        workQueue := s.workQueue ++ [request]
        accepted := s.accepted ++ [request] }
  | unlockWorker {w taken} : s.worker w = .unlocking taken →
      Moves s (.unlock (.inl w)) { s.moveWorker w (.afterUnlock taken) with queueLocker := none }
  | unlockAppender {a accepted} : s.appender a = .unlocking accepted →
      Moves s (.unlock (.inr a))
        { s.moveAppender a (.afterUnlock accepted) with queueLocker := none }
  | post {a} : s.appender a = .posting →
      Moves s (.post a) { s.moveAppender a .idle with queueStat := s.queueStat + 1 }
  | test {w stop} : s.worker w = .testing →
      Moves s (.test w stop) (s.moveWorker w (if stop ≠ false then .waiting else .done))
  | wait {w} : s.worker w = .waiting → 0 < s.queueStat →
      Moves s (.wait w) { s.moveWorker w .locking with queueStat := s.queueStat - 1 }
  | interrupt {w} : s.worker w = .waiting → Moves s (.interrupt w) (s.moveWorker w .locking)
  | takeNone {w} : s.worker w = .taking → s.workQueue = [] →
      Moves s (.take w) (s.moveWorker w (.unlocking none))
  | takeSome {w request rest} : s.worker w = .taking → s.workQueue = request :: rest →
      Moves s (.take w) { s.moveWorker w (.unlocking (some request)) with
        workQueue := rest
        taken := s.taken ++ [(w, request)]
        got := Function.update s.got w (s.got w ++ [request]) }
  | process {w request} : s.worker w = .processing request →
      Moves s (.process w) (s.moveWorker w .testing)

/-- Each line of `append` and `run` is a case of its own. -/
theorem moves_of_next (h : next s l = some s') : Moves s l s' := by
  cases l with
  | call | post | test | interrupt | process =>
    simp only [next] at h
    split at h
    · rename_i hpc
      obtain rfl := Option.some.inj h
      constructor
      exact hpc
    · cases h
  | lock t =>
    rcases t with w | a
    all_goals
      simp only [next] at h
      split at h
      · rename_i hpc hfree
        obtain rfl := Option.some.inj h
        constructor
        · exact hpc
        · exact hfree
      · cases h
  | unlock t =>
    rcases t with w | a
    all_goals
      simp only [next] at h
      split at h
      · rename_i hpc
        obtain rfl := Option.some.inj h
        constructor
        exact hpc
      · cases h
  | push a =>
    simp only [next] at h
    split at h
    · rename_i hpc
      obtain rfl := Option.some.inj h
      rw [Pool.push]
      split_ifs with hfull
      · exact .refuse hpc hfull
      · exact .accept hpc (not_lt.1 hfull)
    · cases h
  | wait w =>
    simp only [next] at h
    split at h
    · rename_i hpc
      split_ifs at h with hpos
      obtain rfl := Option.some.inj h
      exact .wait hpc hpos
    · cases h
  | take w =>
    simp only [next] at h
    split at h
    · rename_i hpc
      obtain rfl := Option.some.inj h
      rw [Pool.take]
      split
      · rename_i hq
        exact .takeNone hpc hq
      · rename_i hq
        exact .takeSome hpc hq
    · cases h

/-! ### The mutex -/

/-- The thread is between `lock` and `unlock`. -/
def Pool.Holds (s : Pool W A T) : W ⊕ A → Prop
  | .inl w => s.worker w = .taking ∨ ∃ taken, s.worker w = .unlocking taken
  | .inr a => (∃ request, s.appender a = .pushing request) ∨
      ∃ accepted, s.appender a = .unlocking accepted

/-- Only the thread that has the mutex is between `lock` and `unlock`. -/
def Exclusive (s : Pool W A T) : Prop := ∀ t, s.Holds t → s.queueLocker = some t

omit [DecidableEq A] in
theorem holds_of_worker {w : W} {pc : WorkerPc T} (hw : s'.worker = Function.update s.worker w pc)
    (ha : s'.appender = s.appender) : ∀ t ≠ .inl w, s'.Holds t → s.Holds t := by
  rintro (v | a) hne h
  · have hv : v ≠ w := fun hv => hne (congrArg Sum.inl hv)
    simpa only [Pool.Holds, hw, Function.update_of_ne hv] using h
  · simpa only [Pool.Holds, ha] using h

omit [DecidableEq W] in
theorem holds_of_appender {a : A} {pc : AppenderPc T} (hw : s'.worker = s.worker)
    (ha : s'.appender = Function.update s.appender a pc) :
    ∀ t ≠ .inr a, s'.Holds t → s.Holds t := by
  rintro (w | b) hne h
  · simpa only [Pool.Holds, hw] using h
  · have hb : b ≠ a := fun hb => hne (congrArg Sum.inr hb)
    simpa only [Pool.Holds, ha, Function.update_of_ne hb] using h

omit [DecidableEq W] [DecidableEq A] in
theorem Exclusive.stay (h : Exclusive s) {t₀ : W ⊕ A} (hothers : ∀ t ≠ t₀, s'.Holds t → s.Holds t)
    (hm : s'.queueLocker = s.queueLocker) (h₀ : s'.Holds t₀ → s.Holds t₀) : Exclusive s' := by
  intro t ht
  rw [hm]
  rcases eq_or_ne t t₀ with rfl | hne
  · exact h _ (h₀ ht)
  · exact h _ (hothers t hne ht)

omit [DecidableEq W] [DecidableEq A] in
theorem Exclusive.relock (h : Exclusive s) {t₀ : W ⊕ A}
    (hothers : ∀ t ≠ t₀, s'.Holds t → s.Holds t) (hs : ∀ t ≠ t₀, s.queueLocker ≠ some t)
    (h₀ : s'.Holds t₀ → s'.queueLocker = some t₀) : Exclusive s' := by
  intro t ht
  rcases eq_or_ne t t₀ with rfl | hne
  · exact h₀ ht
  · exact absurd (h t (hothers t hne ht)) (hs t hne)

omit [DecidableEq W] [DecidableEq A] in
theorem Exclusive.init (maxRequest : ℕ) : Exclusive (Pool.init W A T maxRequest) := by
  rintro (w | a) (h | ⟨_, h⟩)
  · cases h
  · cases h
  · obtain ⟨_, h⟩ := h
    cases h
  · cases h

omit [DecidableEq W] [DecidableEq A] in
theorem not_holds_worker {w : W} {taken : Option (Option T)}
    (h : s.worker w = .afterUnlock taken) : ¬ s.Holds (.inl w) := by
  rcases taken with _ | _ | request <;>
    simp only [WorkerPc.afterUnlock] at h <;> simp [Pool.Holds, h]

omit [DecidableEq W] [DecidableEq A] in
theorem not_holds_appender {a : A} {accepted : Bool} (h : s.appender a = .afterUnlock accepted) :
    ¬ s.Holds (.inr a) := by
  cases accepted <;> simp only [AppenderPc.afterUnlock] at h <;> simp [Pool.Holds, h]

theorem Exclusive.step (h : Exclusive s) (hm : Moves s l s') : Exclusive s' := by
  cases hm with
  | call hpc | refuse hpc | accept hpc | post hpc =>
    refine h.stay (holds_of_appender rfl rfl) rfl ?_
    intro ht
    simp [Pool.Holds, Pool.moveAppender, hpc] at ht ⊢
  | test hpc =>
    refine h.stay (holds_of_worker rfl rfl) rfl ?_
    intro ht
    simp only [Pool.Holds, Pool.moveWorker, Function.update_self] at ht
    split_ifs at ht <;> simp at ht
  | wait hpc | interrupt hpc | takeNone hpc | takeSome hpc | process hpc =>
    refine h.stay (holds_of_worker rfl rfl) rfl ?_
    intro ht
    simp [Pool.Holds, Pool.moveWorker, hpc] at ht ⊢
  | lockWorker _ hfree =>
    exact h.relock (holds_of_worker rfl rfl) (fun t _ => by simp [hfree]) fun _ => rfl
  | lockAppender _ hfree =>
    exact h.relock (holds_of_appender rfl rfl) (fun t _ => by simp [hfree]) fun _ => rfl
  | @unlockWorker w taken hpc =>
    have hheld : s.queueLocker = some (.inl w) := h _ (.inr ⟨taken, hpc⟩)
    refine h.relock (holds_of_worker rfl rfl) (fun t ht => ?_) fun ht => ?_
    · rw [hheld]
      exact fun he => ht (Option.some.inj he).symm
    · exact absurd ht (not_holds_worker (Function.update_self ..))
  | @unlockAppender a accepted hpc =>
    have hheld : s.queueLocker = some (.inr a) := h _ (.inr ⟨accepted, hpc⟩)
    refine h.relock (holds_of_appender rfl rfl) (fun t ht => ?_) fun ht => ?_
    · rw [hheld]
      exact fun he => ht (Option.some.inj he).symm
    · exact absurd ht (not_holds_appender (Function.update_self ..))

/-- **Mutual exclusion.**  Of all threads at most one is between `lock` and `unlock`. -/
theorem holds_unique {maxRequest : ℕ}
    (h : (poolLTS W A T stop).Reachable (.init W A T maxRequest) s) {t t' : W ⊕ A} (ht : s.Holds t)
    (ht' : s.Holds t') : t = t' := by
  have hex : Exclusive s :=
    h.invariant (Exclusive.init maxRequest) fun _ _ _ hu hs => hu.step (moves_of_next hs.1)
  exact Option.some.inj ((hex t ht).symm.trans (hex t' ht'))

theorem Moves.workQueue_eq (hm : Moves s l s') (hl : ¬ s.Holds l.thread) :
    s'.workQueue = s.workQueue := by
  cases hm with
  | accept hpc => exact absurd (.inl ⟨_, hpc⟩) hl
  | takeSome hpc => exact absurd (.inl hpc) hl
  | _ => rfl

/-- While a thread is between `lock` and `unlock`, the other threads leave the queue alone. -/
theorem workQueue_eq_of_holds {maxRequest : ℕ}
    (h : (poolLTS W A T stop).Reachable (.init W A T maxRequest) s) {t : W ⊕ A} (ht : s.Holds t)
    (hs : (poolLTS W A T stop).step s l s') (hne : l.thread ≠ t) : s'.workQueue = s.workQueue :=
  (moves_of_next hs.1).workQueue_eq fun ht' => hne (holds_unique h ht' ht)

/-! ### The requests -/

/-- The requests taken and those in the queue are the ones accepted, in the order of `append`; and
every request taken was taken by one worker. -/
structure Accounts (s : Pool W A T) : Prop where
  order : s.accepted = s.taken.map Prod.snd ++ s.workQueue
  got : ∀ w, s.got w = (s.taken.filter fun e => e.1 = w).map Prod.snd

omit [DecidableEq A] in
theorem Accounts.init (maxRequest : ℕ) : Accounts (Pool.init W A T maxRequest) := ⟨rfl, fun _ => rfl⟩

theorem Accounts.step (h : Accounts s) (hm : Moves s l s') : Accounts s' := by
  cases hm with
  | accept =>
    refine ⟨?_, h.got⟩
    show s.accepted ++ _ = s.taken.map Prod.snd ++ (s.workQueue ++ _)
    rw [h.order, List.append_assoc]
  | @takeSome w request rest _ hq =>
    refine ⟨?_, fun v => ?_⟩
    · show s.accepted = (s.taken ++ [(w, request)]).map Prod.snd ++ rest
      rw [h.order, hq, List.map_append, List.append_assoc]
      rfl
    · show Function.update s.got w _ v = ((s.taken ++ [(w, request)]).filter _).map _
      rw [List.filter_append, List.map_append, ← h.got]
      rcases eq_or_ne v w with rfl | hne
      · rw [Function.update_self]
        simp
      · rw [Function.update_of_ne hne]
        simp [hne.symm]
  | _ => exact ⟨h.order, h.got⟩

/-! ### The wake-ups -/

/-- The worker has returned from `wait` and not yet looked at the queue. -/
def Awake : WorkerPc T → Prop
  | .locking | .taking => True
  | _ => False

/-- The thread has put a request into the queue and not yet posted the semaphore. -/
def Unposted : AppenderPc T → Prop
  | .unlocking true | .posting => True
  | _ => False

instance : DecidablePred (Awake (T := T)) := fun pc => by
  cases pc <;> unfold Awake <;> infer_instance

instance : DecidablePred (Unposted (T := T)) := fun pc => by
  unfold Unposted
  split <;> infer_instance

theorem not_awake_afterUnlock (taken : Option (Option T)) :
    ¬ Awake (WorkerPc.afterUnlock taken) := by
  rcases taken with _ | _ | request <;> exact id

/-- For every request in the queue the semaphore was posted, or a worker is awake, or a post is
still to come. -/
def Covered [Fintype W] [Fintype A] (s : Pool W A T) : Prop :=
  s.workQueue.length ≤ s.queueStat + count Awake s.worker + count Unposted s.appender

theorem unposted_afterUnlock_iff (accepted : Bool) :
    Unposted (AppenderPc.afterUnlock (T := T) accepted) ↔
      Unposted (AppenderPc.unlocking accepted : AppenderPc T) := by
  cases accepted <;> exact Iff.rfl

section Covered

variable [Fintype W] [Fintype A]

omit [DecidableEq W] [DecidableEq A] in
theorem Covered.init (maxRequest : ℕ) : Covered (Pool.init W A T maxRequest) := Nat.zero_le _

omit [DecidableEq W] in
theorem Covered.of_appender {a : A} {pc : AppenderPc T} (h : Covered s)
    (hpc : Unposted (s.appender a) ↔ Unposted pc) (hq : s'.workQueue = s.workQueue)
    (hstat : s'.queueStat = s.queueStat) (hw : s'.worker = s.worker)
    (ha : s'.appender = Function.update s.appender a pc) : Covered s' := by
  unfold Covered
  rw [hq, hstat, hw, ha, count_update_same hpc]
  exact h

omit [DecidableEq A] in
theorem Covered.of_worker {w : W} {pc : WorkerPc T} (h : Covered s)
    (hpc : Awake (s.worker w) ↔ Awake pc) (hq : s'.workQueue = s.workQueue)
    (hstat : s'.queueStat = s.queueStat) (hw : s'.worker = Function.update s.worker w pc)
    (ha : s'.appender = s.appender) : Covered s' := by
  unfold Covered
  rw [hq, hstat, hw, ha, count_update_same hpc]
  exact h

theorem Covered.step (h : Covered s) (hm : Moves s l s') : Covered s' := by
  cases hm with
  | call hpc | lockAppender hpc | refuse hpc =>
    exact h.of_appender (by simp [hpc, Unposted]) rfl rfl rfl rfl
  | unlockAppender hpc =>
    exact h.of_appender (by rw [hpc, unposted_afterUnlock_iff]) rfl rfl rfl rfl
  | lockWorker hpc | process hpc =>
    exact h.of_worker (by simp [hpc, Awake]) rfl rfl rfl rfl
  | @unlockWorker w taken hpc =>
    have hasleep : ¬ Awake (s.worker w) := by simp [hpc, Awake]
    exact h.of_worker (iff_of_false hasleep (not_awake_afterUnlock taken)) rfl rfl rfl rfl
  | @test w stop hpc =>
    have hasleep : ¬ Awake (s.worker w) := by simp [hpc, Awake]
    have hasleep' : ¬ Awake (if stop ≠ false then .waiting else .done : WorkerPc T) := by
      split_ifs <;> exact id
    exact h.of_worker (iff_of_false hasleep hasleep') rfl rfl rfl rfl
  | @accept a request hpc _ =>
    -- the queue grows, and `a` owes a post for it
    have hcount : count Unposted (Function.update s.appender a (.unlocking true)) = _ :=
      count_update_enter (by simp [hpc, Unposted]) trivial
    unfold Covered at h ⊢
    simp only [Pool.moveAppender, hcount, List.length_append, List.length_singleton]
    omega
  | @post a hpc =>
    -- the post that `a` owed is made
    have hcount : count Unposted (Function.update s.appender a .idle) + 1 = _ :=
      count_update_leave (by simp [hpc, Unposted]) id
    unfold Covered at h ⊢
    simp only [Pool.moveAppender]
    omega
  | @wait w hpc hpos =>
    -- a post is used up, and `w` owes a look for it
    have hcount : count Awake (Function.update s.worker w .locking) = _ :=
      count_update_enter (by simp [hpc, Awake]) trivial
    unfold Covered at h ⊢
    simp only [Pool.moveWorker, hcount]
    omega
  | @interrupt w hpc =>
    have hcount : count Awake (Function.update s.worker w .locking) = _ :=
      count_update_enter (by simp [hpc, Awake]) trivial
    unfold Covered at h ⊢
    simp only [Pool.moveWorker, hcount]
    omega
  | @takeNone w hpc hq =>
    unfold Covered
    simp only [Pool.moveWorker, hq, List.length_nil]
    exact Nat.zero_le _
  | @takeSome w request rest hpc hq =>
    -- the queue shrinks, and `w` has had its look
    have hcount : count Awake (Function.update s.worker w (.unlocking (some request))) + 1 = _ :=
      count_update_leave (by simp [hpc, Awake]) id
    unfold Covered at h ⊢
    rw [hq, List.length_cons] at h
    simp only [Pool.moveWorker]
    omega

/-- **No request and no wake-up is lost or doubled.**  In every state that the threads can reach,
whatever the values read from `m_stop`: the requests accepted are, in this order, the ones taken
and the ones in the queue; each one taken is with the worker that took it; and for every request in
the queue there is a post of the semaphore not used yet, a worker on its way to the queue, or a
thread on its way to `post`. -/
theorem accounts_of_reachable {maxRequest : ℕ}
    (h : (poolLTS W A T stop).Reachable (.init W A T maxRequest) s) :
    s.accepted = s.taken.map Prod.snd ++ s.workQueue ∧
      (∀ w, s.got w = (s.taken.filter fun e => e.1 = w).map Prod.snd) ∧
      s.workQueue.length ≤ s.queueStat + count Awake s.worker + count Unposted s.appender := by
  have haccounts : Accounts s :=
    h.invariant (Accounts.init maxRequest) fun _ _ _ hu hs => hu.step (moves_of_next hs.1)
  have hcovered : Covered s :=
    h.invariant (Covered.init maxRequest) fun _ _ _ hu hs => hu.step (moves_of_next hs.1)
  exact ⟨haccounts.order, haccounts.got, hcovered⟩

theorem accounts_of_reachable_one : ∃ s : Pool Unit Unit ℕ, s.accepted = [some 7, none] ∧
    s.taken = [((), some 7)] ∧ s.accepted = s.taken.map Prod.snd ++ s.workQueue ∧
      (∀ w, s.got w = (s.taken.filter fun e => e.1 = w).map Prod.snd) ∧
      s.workQueue.length ≤ s.queueStat + count Awake s.worker + count Unposted s.appender := by
  let steps : List (Action Unit Unit ℕ) :=
    [.call () (some 7), .lock (.inr ()), .push (), .unlock (.inr ()), .post (),
      .test () true, .wait (), .call () none, .lock (.inr ()), .push (), .unlock (.inr ()),
      .lock (.inl ()), .take ()]
  have hrun : steps.foldlM next (.init Unit Unit ℕ 1) = some _ := rfl
  have hreach : (poolLTS Unit Unit ℕ fun _ => True).Reachable (.init Unit Unit ℕ 1) _ :=
    reachable_of_foldlM hrun fun _ _ _ => trivial
  exact ⟨_, rfl, rfl, accounts_of_reachable hreach⟩

end Covered

end ThreadPool

end LinuxServer
