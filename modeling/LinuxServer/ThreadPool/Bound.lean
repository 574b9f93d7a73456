import LinuxServer.ThreadPool.Accounts

/-!
# The bound of the queue

`append` refuses a request only when the queue is longer than `m_max_request` already, so that the
queue takes one request more.

* `Bounded s`: the queue is not longer than `m_max_request`.
* `Admits s l s'`: what a step of `append` should do with the bound.
* `NotBrimful s l`: `append` does not find a queue of exactly this length.

`bounded_iff_notBrimful`: a run keeps the bound as long as its steps meet this, and no longer.
-/

namespace LinuxServer

namespace ThreadPool

variable {W A T : Type*} [DecidableEq W] [DecidableEq A] {s s' u w : Pool W A T} {l : Action W A T}
  {stop : Bool → Prop} {maxRequest : ℕ} {ops : List (Action W A T)}

/-- The queue is not longer than `m_max_request`. -/
def Bounded (s : Pool W A T) : Prop := s.workQueue.length ≤ s.maxRequest

/-- A request is refused iff the queue is full.  A call whose request is refused leaves the queue
and the semaphore alone until it returns. -/
structure Admits (s : Pool W A T) (l : Action W A T) (s' : Pool W A T) : Prop where
  refuses_iff : ∀ a, l = .push a →
    (s'.appender a = .unlocking false ↔ s.workQueue.length = s.maxRequest)
  refused : ∀ a, l = .push a → s'.appender a = .unlocking false →
    s'.workQueue = s.workQueue ∧ s'.queueStat = s.queueStat
  returns : ∀ a, l = .unlock (.inr a) → s.appender a = .unlocking false →
    s'.appender a = .idle ∧ s'.workQueue = s.workQueue ∧ s'.queueStat = s.queueStat

/-- The size of the queue is not tested when it is exactly `m_max_request`. -/
def NotBrimful (s : Pool W A T) : Action W A T → Prop
  | .push _ => s.workQueue.length ≠ s.maxRequest
  | _ => True

omit [DecidableEq W] [DecidableEq A] in
theorem bounded_init : Bounded (Pool.init W A T maxRequest) := Nat.zero_le _

/-- Only `append` makes the queue longer. -/
theorem Bounded.step (h : Bounded s) (hm : Moves s l s') (hC : NotBrimful s l) : Bounded s' := by
  cases hm with
  | call | lockWorker | lockAppender | refuse | unlockWorker | unlockAppender | post | test | wait
  | interrupt | takeNone | process => exact h
  | accept hpc hle =>
    have hlt : s.workQueue.length < s.maxRequest := lt_of_le_of_ne hle hC
    show (s.workQueue ++ [_]).length ≤ s.maxRequest
    rw [List.length_append, List.length_singleton]
    exact hlt
  | takeSome hpc hq =>
    have hle : s.workQueue.length ≤ s.maxRequest := h
    rw [hq] at hle
    exact (Nat.le_succ _).trans hle

/-- From a queue of exactly `m_max_request` requests `append` makes a longer one. -/
theorem notBrimful_of_bounded (hm : Moves s l s') (h : Bounded s') : NotBrimful s l := by
  cases hm with
  | call | lockWorker | lockAppender | unlockWorker | unlockAppender | post | test | wait
  | interrupt | takeNone | takeSome | process => trivial
  | refuse hpc hlt => exact hlt.ne'
  | accept hpc hle =>
    intro heq
    have hle : (s.workQueue ++ [_]).length ≤ s.maxRequest := h
    rw [List.length_append, List.length_singleton, heq] at hle
    exact Nat.not_succ_le_self _ hle

omit [DecidableEq W] [DecidableEq A] in
theorem admits_of_other (hpush : ∀ a, l ≠ .push a) (hunlock : ∀ a, l ≠ .unlock (.inr a)) :
    Admits s l s' :=
  ⟨fun a ha => absurd ha (hpush a), fun a ha => absurd ha (hpush a),
    fun a ha => absurd ha (hunlock a)⟩

theorem Bounded.admits (h : Bounded s) (hm : Moves s l s') (hC : NotBrimful s l) :
    Admits s l s' := by
  have hle : s.workQueue.length ≤ s.maxRequest := h
  cases hm with
  | call | lockWorker | lockAppender | unlockWorker | post | test | wait | interrupt | takeNone
  | takeSome | process => exact admits_of_other (by simp) (by simp)
  | refuse hpc hlt => exact absurd hlt (Nat.not_lt.2 hle)
  | @accept a request hpc hle =>
    have hpc' : Function.update s.appender a (AppenderPc.unlocking true) a = .unlocking true :=
      Function.update_self a _ _
    constructor
    · rintro _ ⟨⟩
      exact iff_of_false (fun hrefused => by cases hpc'.symm.trans hrefused) hC
    · rintro _ ⟨⟩ hrefused
      cases hpc'.symm.trans hrefused
    · intro a ha
      cases ha
  | @unlockAppender a accepted hpc =>
    constructor
    · intro a ha
      cases ha
    · intro a ha
      cases ha
    · rintro _ ⟨⟩ hrefused
      obtain rfl := AppenderPc.unlocking.inj (hpc.symm.trans hrefused)
      exact ⟨Function.update_self a _ _, rfl, rfl⟩

/-- **The bound of the queue.**  In a run the queue never gets longer than `m_max_request`, and
`append` refuses exactly when it is full, if and only if no call of `append` tests its size when it
is exactly `m_max_request`. -/
theorem bounded_iff_notBrimful
    (h : (poolLTS W A T stop).Run (.init W A T maxRequest) ops s) :
    ((∀ pre u, pre <+: ops → (poolLTS W A T stop).Run (.init W A T maxRequest) pre u → Bounded u) ∧
        ∀ pre l u w, pre ++ [l] <+: ops →
          (poolLTS W A T stop).Run (.init W A T maxRequest) pre u →
          (poolLTS W A T stop).step u l w → Admits u l w) ↔
      ∀ pre l u, pre ++ [l] <+: ops →
        (poolLTS W A T stop).Run (.init W A T maxRequest) pre u → NotBrimful u l := by
  have hkeep := h.forall_prefix_iff (I := Bounded) (P := Bounded) (C := NotBrimful)
    (deterministic stop) bounded_init (fun _ hu => hu)
    (fun _ _ _ _ hu hs => hu.step (moves_of_next hs.1))
    (fun _ _ _ _ _ hs => notBrimful_of_bounded (moves_of_next hs.1))
  constructor
  · intro hbounded
    exact hkeep.1 hbounded.1
  · intro hC
    refine ⟨hkeep.2 hC, fun pre l u w hpre hu hs => ?_⟩
    have hu' : Bounded u := hkeep.2 hC pre u ((List.prefix_append _ _).trans hpre) hu
    exact hu'.admits (moves_of_next hs.1) (hC pre l u hpre hu)

/-- One request, appended to an empty queue with room for one. -/
theorem bounded_iff_notBrimful_one : ∃ s,
    (poolLTS Unit Unit ℕ fun _ => True).Run (.init Unit Unit ℕ 1)
      [.call () (some 7), .lock (.inr ()), .push ()] s ∧ Bounded s := by
  have hsteps : [Action.call () (some 7), .lock (.inr ()), .push ()].foldlM next
      (.init Unit Unit ℕ 1) = some _ := rfl
  have hrun : (poolLTS Unit Unit ℕ fun _ => True).Run (.init Unit Unit ℕ 1) _ _ :=
    (LTS.run_of_foldlM hsteps).mono fun u l w _ hs => ⟨hs, fun _ _ _ => trivial⟩
  have hbefore : [Action.call () (some 7), .lock (.inr ())].foldlM next
      (.init Unit Unit ℕ 1) = some _ := rfl
  have hrun' : (poolLTS Unit Unit ℕ fun _ => True).Run (.init Unit Unit ℕ 1) _ _ :=
    (LTS.run_of_foldlM hbefore).mono fun u l w _ hs => ⟨hs, fun _ _ _ => trivial⟩
  refine ⟨_, hrun, ((bounded_iff_notBrimful hrun).2 ?_).1 _ _ (List.prefix_refl _) hrun⟩
  intro pre l u hpre hu
  obtain ⟨post, hpost⟩ := hpre
  rcases pre with _ | ⟨l₁, _ | ⟨l₂, _ | ⟨l₃, pre⟩⟩⟩
  all_goals simp only [List.cons_append, List.nil_append, List.cons.injEq] at hpost
  · obtain ⟨rfl, -⟩ := hpost
    trivial
  · obtain ⟨-, rfl, -⟩ := hpost
    trivial
  · obtain ⟨rfl, rfl, rfl, -⟩ := hpost
    obtain rfl := (deterministic _).run_unique hrun' hu
    exact Nat.zero_ne_one
  · simp at hpost

/-- Two requests, appended to a queue with room for one. -/
theorem not_bounded_two : ¬ ∀ maxRequest > 0, ∀ s,
    (poolLTS Unit Unit ℕ fun _ => True).Reachable (.init Unit Unit ℕ maxRequest) s → Bounded s := by
  intro h
  let append : List (Action Unit Unit ℕ) :=
    [.call () (some 7), .lock (.inr ()), .push (), .unlock (.inr ()), .post ()]
  have hsteps : (append ++ append).foldlM next (.init Unit Unit ℕ 1) = some _ := rfl
  have hle : 2 ≤ 1 := h 1 Nat.one_pos _ (reachable_of_foldlM hsteps fun _ _ _ => trivial)
  exact absurd hle (by decide)

end ThreadPool

end LinuxServer
