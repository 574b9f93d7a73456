import LinuxServer.ThreadPool.Life

/-!
# The constructor of the thread pool

What the constructor makes of any results of `pthread_create` and `pthread_detach`.  It takes the
result zero of `pthread_detach`, which means success, for the failure.

* `threadPool r threadNumber maxRequests`: how the constructor ends, and the calls it has made.
* `Constructs r threadNumber maxRequests`: it ends as it is meant to.

`threadPool_run`: the owner of a pool (`Life`) goes the same way.  `constructs_iff`: the constructor
does what it is meant to exactly when the first thread cannot be created.
-/

namespace LinuxServer

namespace ThreadPool

variable {A T : Type*} {i left : ℕ} {threadNumber maxRequests : ℤ}

/-- A call that the constructor makes for thread `i`. -/
inductive ThreadCall where
  | create (i : ℕ)
  | detach (i : ℕ)
  deriving DecidableEq, Repr

/-- The results of the calls, zero for success. -/
abbrev Results := ThreadCall → ℤ

/-- How the constructor ends. -/
structure Construction where
  /-- It returns, it does not throw. -/
  returns : Bool
  calls : List ThreadCall
  /-- How often `m_threads` is freed. -/
  freed : ℕ
  deriving DecidableEq, Repr

/-- The loop of the constructor, with `left` threads to start, the next one `i`. -/
def startThreads (r : Results) : ℕ → ℕ → Construction
  | 0, _ => ⟨true, [], 0⟩
  | left + 1, i =>
    if r (.create i) ≠ 0 then ⟨false, [.create i], 1⟩
    else if r (.detach i) = 0 then ⟨false, [.create i, .detach i], 1⟩
    else
      let rest := startThreads r left (i + 1)
      { rest with calls := .create i :: .detach i :: rest.calls }

/-- `thread_pool(int thread_number, int max_requests)`, when there is memory for `m_threads`. -/
def threadPool (r : Results) (threadNumber maxRequests : ℤ) : Construction :=
  if threadNumber ≤ 0 ∨ maxRequests ≤ 0 then ⟨false, [], 0⟩
  else startThreads r threadNumber.toNat 0

/-- The calls that start `n` threads. -/
def threadCalls (n : ℕ) : List ThreadCall := (List.range n).flatMap fun i => [.create i, .detach i]

/-- The constructor returns iff all calls succeed, and otherwise throws at the first one that fails,
when it has freed `m_threads` once. -/
structure Constructs (r : Results) (threadNumber maxRequests : ℤ) : Prop where
  returns_iff : (threadPool r threadNumber maxRequests).returns = true ↔
    ∀ c ∈ threadCalls threadNumber.toNat, r c = 0
  throws : ∀ pre c post, threadCalls threadNumber.toNat = pre ++ c :: post →
    (∀ c' ∈ pre, r c' = 0) → r c ≠ 0 →
      threadPool r threadNumber maxRequests = ⟨false, pre ++ [c], 1⟩

variable {r : Results}

theorem startThreads_of_create (h : r (.create i) ≠ 0) :
    startThreads r (left + 1) i = ⟨false, [.create i], 1⟩ := if_pos h

theorem startThreads_of_detach (hcreate : r (.create i) = 0) (h : r (.detach i) = 0) :
    startThreads r (left + 1) i = ⟨false, [.create i, .detach i], 1⟩ := by
  rw [startThreads, if_neg (not_not.2 hcreate), if_pos h]

theorem startThreads_of_next (hcreate : r (.create i) = 0) (h : r (.detach i) ≠ 0) :
    startThreads r (left + 1) i = { startThreads r left (i + 1) with
      calls := .create i :: .detach i :: (startThreads r left (i + 1)).calls } := by
  rw [startThreads, if_neg (not_not.2 hcreate), if_neg h]

/-! ### The constructor as the owner's part in the life of a pool -/

section Life

variable [DecidableEq A]

/-- The step of the owner that a call is. -/
def ThreadCall.action (r : Results) : ThreadCall → LifeAction A T
  | .create i => .create (r (.create i) = 0)
  | .detach i => .detach (r (.detach i) = 0)

variable {s : Life A T}

theorem create_step (howner : s.owner = .creating i) (h : r (.create i) = 0) :
    (lifeLTS A T).step s (ThreadCall.action r (.create i))
      { s with owner := .detaching i, started := s.started + 1 } := by
  show lifeStep s (.create (decide (r (.create i) = 0))) = _
  rw [decide_eq_true h, lifeStep, howner]
  rfl

theorem create_step_thrown (howner : s.owner = .creating i) (h : r (.create i) ≠ 0) :
    (lifeLTS A T).step s (ThreadCall.action r (.create i)) { s with owner := .thrown } := by
  show lifeStep s (.create (decide (r (.create i) = 0))) = _
  rw [decide_eq_false h, lifeStep, howner]
  rfl

theorem detach_step_thrown (howner : s.owner = .detaching i) (h : r (.detach i) = 0) :
    (lifeLTS A T).step s (ThreadCall.action r (.detach i)) { s with owner := .thrown } := by
  show lifeStep s (.detach (decide (r (.detach i) = 0))) = _
  rw [decide_eq_true h, lifeStep, howner]
  rfl

theorem detach_step (howner : s.owner = .detaching i) (h : r (.detach i) ≠ 0) :
    (lifeLTS A T).step s (ThreadCall.action r (.detach i))
      { s with owner := if (i + 1 : ℤ) < s.threadNumber then .creating (i + 1) else .opened } := by
  show lifeStep s (.detach (decide (r (.detach i) = 0))) = _
  rw [decide_eq_false h, lifeStep, howner]
  rfl

/-- The owner starts the threads that are left. -/
theorem startThreads_run (r : Results) (left : ℕ) (hnumber : s.threadNumber = i + left)
    (howner : s.owner = if left = 0 then .opened else .creating i) :
    ∃ s', (lifeLTS A T).Run s ((startThreads r left i).calls.map (ThreadCall.action r)) s' ∧
      s'.owner = if (startThreads r left i).returns then .opened else .thrown := by
  induction left generalizing i s with
  | zero => exact ⟨s, .nil, howner⟩
  | succ left ih =>
    have howner : s.owner = .creating i := howner
    by_cases hcreate : r (.create i) = 0
    · -- a thread is created, and it is detached or not
      have hcreated := create_step howner hcreate
      by_cases hdetach : r (.detach i) = 0
      · rw [startThreads_of_detach hcreate hdetach]
        exact ⟨_, .cons hcreated (.single (detach_step_thrown rfl hdetach)), rfl⟩
      · rw [startThreads_of_next hcreate hdetach]
        have hnext := detach_step (s := { s with owner := .detaching i, started := s.started + 1 })
          rfl hdetach
        have hleft : (if (i + 1 : ℤ) < s.threadNumber then OwnerPc.creating (i + 1) else .opened) =
            if left = 0 then .opened else .creating (i + 1) := by
          by_cases h0 : left = 0
          · rw [if_pos h0, if_neg (by omega)]
          · rw [if_neg h0, if_pos (by omega)]
        have hnumber' : s.threadNumber = (i + 1 : ℕ) + left := by omega
        obtain ⟨s', hrun, howner'⟩ := ih (i := i + 1) (s := { s with
          owner := if (i + 1 : ℤ) < s.threadNumber then .creating (i + 1) else .opened
          started := s.started + 1 }) hnumber' hleft
        exact ⟨s', .cons hcreated (.cons hnext hrun), howner'⟩
    · rw [startThreads_of_create hcreate]
      exact ⟨_, .single (create_step_thrown howner hcreate), rfl⟩

/-- The calls of the constructor open the pool, or end its life. -/
theorem threadPool_run (hn : 0 < threadNumber) (hm : 0 < maxRequests) :
    ∃ s', (lifeLTS A T).Run (.init A T threadNumber maxRequests)
        (.check :: .allocate true ::
          (threadPool r threadNumber maxRequests).calls.map (ThreadCall.action r)) s' ∧
      s'.owner = if (threadPool r threadNumber maxRequests).returns then .opened else .thrown := by
  have hgood : ¬ (threadNumber ≤ 0 ∨ maxRequests ≤ 0) := by omega
  have hcheck : (lifeLTS A T).step (.init A T threadNumber maxRequests) .check
      { Life.init A T threadNumber maxRequests with owner := .allocating } := by
    show lifeStep (.init A T threadNumber maxRequests) .check = _
    exact if_neg hgood
  have hallocate : (lifeLTS A T).step
      { Life.init A T threadNumber maxRequests with owner := .allocating } (.allocate true)
      { Life.init A T threadNumber maxRequests with owner := .creating 0 } := rfl
  rw [threadPool, if_neg hgood]
  obtain ⟨s', hrun, howner⟩ := startThreads_run r threadNumber.toNat (i := 0)
    (s := { Life.init A T threadNumber maxRequests with owner := .creating 0 })
    (by show threadNumber = _; omega) (by rw [if_neg (by omega)])
  exact ⟨s', .cons hcheck (.cons hallocate hrun), howner⟩

end Life

/-! ### When it does what it is meant to -/

theorem threadCalls_succ (n : ℕ) :
    ∃ calls, threadCalls (n + 1) = .create 0 :: .detach 0 :: calls := by
  rw [threadCalls, List.range_succ_eq_map]
  exact ⟨_, rfl⟩

theorem exists_first {α : Type*} {p : α → Prop} {L : List α} (h : ¬ ∀ c ∈ L, p c) :
    ∃ pre c post, L = pre ++ c :: post ∧ (∀ c' ∈ pre, p c') ∧ ¬ p c := by
  induction L with
  | nil => exact absurd (fun c hc => absurd hc List.not_mem_nil) h
  | cons c L ih =>
    by_cases hc : p c
    · obtain ⟨pre, d, post, rfl, hpre, hd⟩ := ih fun hall => h fun c' hc' => by
        rcases List.mem_cons.1 hc' with rfl | hc'
        · exact hc
        · exact hall c' hc'
      refine ⟨c :: pre, d, post, rfl, fun c' hc' => ?_, hd⟩
      rcases List.mem_cons.1 hc' with rfl | hc'
      · exact hc
      · exact hpre c' hc'
    · exact ⟨[], c, L, rfl, fun c' hc' => absurd hc' List.not_mem_nil, hc⟩

theorem threadPool_succ (r : Results) (n : ℕ) (hm : 0 < maxRequests) :
    threadPool r (n + 1 : ℕ) maxRequests = startThreads r (n + 1) 0 := by
  rw [threadPool, if_neg (by omega), Int.toNat_natCast]

/-- Without the first thread the constructor throws, as it is meant to. -/
theorem constructs_of_create (n : ℕ) (hm : 0 < maxRequests) (hcreate : r (.create 0) ≠ 0) :
    Constructs r (n + 1 : ℕ) maxRequests := by
  obtain ⟨calls, hcalls⟩ := threadCalls_succ n
  have hthrown : startThreads r (n + 1) 0 = _ := startThreads_of_create hcreate
  rw [← threadPool_succ r n hm] at hthrown
  constructor
  · rw [hthrown, Int.toNat_natCast, hcalls]
    exact iff_of_false Bool.false_ne_true fun hall => hcreate (hall _ List.mem_cons_self)
  · intro pre c post hsplit hpre hc
    rw [Int.toNat_natCast, hcalls] at hsplit
    rcases pre with _ | ⟨d, pre⟩
    · obtain ⟨rfl, -⟩ := List.cons.inj hsplit
      exact hthrown
    · obtain ⟨rfl, -⟩ := List.cons.inj hsplit
      exact absurd (hpre _ List.mem_cons_self) hcreate

/-- The first thread is started, and the constructor throws all the same. -/
theorem not_constructs_of_detach (n : ℕ) (hm : 0 < maxRequests) (hcreate : r (.create 0) = 0)
    (hdetach : r (.detach 0) = 0) : ¬ Constructs r (n + 1 : ℕ) maxRequests := by
  rintro ⟨hreturns, hthrows⟩
  rw [threadPool_succ r n hm, Int.toNat_natCast, startThreads_of_detach hcreate hdetach]
    at hthrows hreturns
  have hfails : ¬ ∀ c ∈ threadCalls (n + 1), r c = 0 := fun hall => by
    cases hreturns.2 hall
  obtain ⟨pre, c, post, hsplit, hpre, hc⟩ := exists_first hfails
  have hlast : [ThreadCall.create 0, .detach 0] = pre ++ [c] :=
    congrArg Construction.calls (hthrows pre c post hsplit hpre hc)
  have hmem : c ∈ [ThreadCall.create 0, .detach 0] := hlast ▸ List.mem_append_right pre (by simp)
  rcases List.mem_cons.1 hmem with rfl | hmem
  · exact hc hcreate
  · exact hc (List.mem_singleton.1 hmem ▸ hdetach)

/-- The first thread cannot be detached, and the constructor goes on. -/
theorem not_constructs_of_next (n : ℕ) (hm : 0 < maxRequests) (hcreate : r (.create 0) = 0)
    (hdetach : r (.detach 0) ≠ 0) : ¬ Constructs r (n + 1 : ℕ) maxRequests := by
  rintro ⟨-, hthrows⟩
  obtain ⟨calls, hcalls⟩ := threadCalls_succ n
  rw [threadPool_succ r n hm, Int.toNat_natCast] at hthrows
  have hthrown := hthrows [.create 0] (.detach 0) calls hcalls (by simp [hcreate]) hdetach
  rw [startThreads_of_next hcreate hdetach] at hthrown
  have hnone := congrArg Construction.calls hthrown
  have hfalse := congrArg Construction.returns hthrown
  have hrest : (startThreads r n 1).calls = [] := by simpa using hnone
  cases n with
  | zero => cases hfalse
  | succ n =>
    unfold startThreads at hrest
    split_ifs at hrest

/-- **When the constructor does what it is meant to**: exactly when the first thread cannot be
created.  Once a thread is created, its detachment throws where it succeeds, and does not where it
fails. -/
theorem constructs_iff (hn : 0 < threadNumber) (hm : 0 < maxRequests) :
    Constructs r threadNumber maxRequests ↔ r (.create 0) ≠ 0 := by
  obtain ⟨n, rfl⟩ : ∃ n : ℕ, threadNumber = (n + 1 : ℕ) := ⟨threadNumber.toNat - 1, by omega⟩
  constructor
  · intro hc hcreate
    by_cases hdetach : r (.detach 0) = 0
    · exact not_constructs_of_detach n hm hcreate hdetach hc
    · exact not_constructs_of_next n hm hcreate hdetach hc
  · exact constructs_of_create n hm

/-- `pthread_create` fails at once. -/
theorem constructs_iff_one : Constructs (fun _ => 11) 1 1 :=
  (constructs_iff Int.zero_lt_one Int.zero_lt_one).2 (by decide)

/-- One thread is created and detached. -/
theorem not_constructs_all : ¬ ∀ (r : Results) (threadNumber maxRequests : ℤ), 0 < threadNumber →
    0 < maxRequests → Constructs r threadNumber maxRequests := by
  intro h
  have hreturns := (h (fun _ => 0) 1 1 (by decide) (by decide)).returns_iff
  exact absurd (hreturns.2 fun _ _ => rfl) (by decide)

end ThreadPool

end LinuxServer
