import LinuxServer.ThreadPool.Accounts

/-!
# Requests that no worker will take

Before the destructor has run, `m_stop` is `false`, and the loop `while(m_stop != false)` of `run`
is left at its first test.

* `Stranded s`: a request is in the queue and every worker has returned.
* `Manned s l`: the step `l` does not strand a request.

`reachable_stranded`: every pool with a thread that appends can strand a request.
`done_iff_tested`: the workers that have left their loop are those that have tested `m_stop`.
`stranded_or_manned`: which runs strand no request, and in which no worker leaves its loop.
-/

namespace LinuxServer

namespace ThreadPool

variable {W A T : Type*} [DecidableEq W] [DecidableEq A] {s s' : Pool W A T} {l : Action W A T}
  {maxRequest : ℕ}

/-- The steps before the destructor has run: `m_stop` is what the constructor has made it. -/
abbrev openLTS (W A T : Type*) [DecidableEq W] [DecidableEq A] :
    LTS (Pool W A T) (Action W A T) := poolLTS W A T (· = false)

/-- A request is in the queue and every worker has returned. -/
def Stranded (s : Pool W A T) : Prop := s.workQueue ≠ [] ∧ ∀ w, s.worker w = .done

/-- A test of `m_stop` finds the queue empty or leaves a worker that has not returned; a request is
put into the queue only when some worker has not returned. -/
def Manned (s : Pool W A T) : Action W A T → Prop
  | .test w _ => s.workQueue = [] ∨ ∃ v ≠ w, s.worker v ≠ .done
  | .push _ => ∃ w, s.worker w ≠ .done
  | _ => True

instance [Fintype W] [DecidableEq T] : Decidable (Manned s l) :=
  match l with
  | .test w _ => inferInstanceAs (Decidable (s.workQueue = [] ∨ ∃ v, v ≠ w ∧ s.worker v ≠ .done))
  | .push _ => inferInstanceAs (Decidable (∃ w, s.worker w ≠ .done))
  | .call _ _ | .lock _ | .unlock _ | .post _ | .wait _ | .interrupt _ | .take _ | .process _ =>
    .isTrue trivial

omit [DecidableEq W] [DecidableEq A] in
theorem not_stranded_iff : ¬ Stranded s ↔ s.workQueue = [] ∨ ∃ w, s.worker w ≠ .done := by
  simp only [Stranded, not_and_or, not_not, not_forall, ne_eq]

omit [DecidableEq W] [DecidableEq A] in
theorem not_stranded_init : ¬ Stranded (Pool.init W A T maxRequest) := fun h => h.1 rfl

omit [DecidableEq A] in
theorem not_stranded_of_update {w : W} {pc : WorkerPc T}
    (hw : s'.worker = Function.update s.worker w pc) (hpc : pc ≠ .done) : ¬ Stranded s' := by
  rintro ⟨-, hdone⟩
  have hd := hdone w
  rw [hw, Function.update_self] at hd
  exact hpc hd

theorem afterUnlock_ne_done (taken : Option (Option T)) :
    WorkerPc.afterUnlock taken ≠ (.done : WorkerPc T) := by
  rcases taken with _ | _ | request <;> exact nofun

theorem not_stranded_of_manned (h : ¬ Stranded s) (hm : Moves s l s') (hl : Manned s l) :
    ¬ Stranded s' := by
  cases hm with
  | call | lockAppender | refuse | unlockAppender | post => exact h
  | lockWorker | wait | interrupt | takeNone | takeSome | process =>
    exact not_stranded_of_update rfl nofun
  | unlockWorker => exact not_stranded_of_update rfl (afterUnlock_ne_done _)
  | accept =>
    obtain ⟨w, hw⟩ := hl
    exact fun hs => hw (hs.2 w)
  | @test w stop =>
    rcases hl with hq | ⟨v, hne, hv⟩
    · exact fun hs => hs.1 hq
    · intro hs
      have hd : Function.update s.worker w _ v = .done := hs.2 v
      rw [Function.update_of_ne hne] at hd
      exact hv hd

theorem manned_of_not_stranded (h : ¬ Stranded s) (hm : Moves s l s')
    (hstop : ∀ w b, l = .test w b → b = false) (hs' : ¬ Stranded s') : Manned s l := by
  cases hm with
  | @test w stop =>
    obtain rfl := hstop w stop rfl
    rcases not_stranded_iff.1 hs' with hq | ⟨v, hv⟩
    · exact .inl hq
    · have hne : v ≠ w := by
        rintro rfl
        exact hv (Function.update_self ..)
      refine .inr ⟨v, hne, ?_⟩
      have hv' : Function.update s.worker w _ v ≠ .done := hv
      rwa [Function.update_of_ne hne] at hv'
  | refuse _ hfull =>
    rcases not_stranded_iff.1 h with hq | hw
    · rw [hq] at hfull
      exact absurd hfull (Nat.not_lt_zero _)
    · exact hw
  | accept =>
    rcases not_stranded_iff.1 hs' with hq | hw
    · exact absurd hq (by simp)
    · exact hw
  | _ => trivial

/-! ### What every pool can do -/

/-- The pool in which the workers of `F` have tested `m_stop`. -/
def Pool.tested (A T : Type*) (maxRequest : ℕ) (F : Finset W) : Pool W A T :=
  { Pool.init W A T maxRequest with worker := fun w => if w ∈ F then .done else .testing }

theorem reachable_tested (F : Finset W) :
    (openLTS W A T).Reachable (.init W A T maxRequest) (.tested A T maxRequest F) := by
  induction F using Finset.induction_on with
  | empty => exact .refl _
  | insert w F hw ih =>
    have hpc : (Pool.tested A T maxRequest F).worker w = .testing := if_neg hw
    have hworker : Function.update (Pool.tested A T maxRequest F).worker w .done =
        (Pool.tested A T maxRequest (insert w F)).worker := by
      funext v
      rcases eq_or_ne v w with rfl | hne
      · rw [Function.update_self]
        exact (if_pos (Finset.mem_insert_self v F)).symm
      · rw [Function.update_of_ne hne]
        simp only [Pool.tested, Finset.mem_insert, hne, false_or]
    have hnext : next (Pool.tested A T maxRequest F) (.test w false) =
        some (Pool.tested A T maxRequest (insert w F)) := by
      simp only [next, hpc, Pool.moveWorker, ne_eq, not_true_eq_false, ↓reduceIte, hworker]
      rfl
    have hstop : ∀ v b, Action.test w false = (.test v b : Action W A T) → b = false := by
      rintro _ _ ⟨⟩
      rfl
    exact ih.tail ⟨hnext, hstop⟩

/-- A thread appends a request after every worker has returned. -/
theorem reachable_stranded [Fintype W] (a : A) (request : Option T) :
    ∃ s, (openLTS W A T).Reachable (.init W A T maxRequest) s ∧ Stranded s := by
  let s₀ := Pool.tested (W := W) A T maxRequest Finset.univ
  let s₁ := s₀.moveAppender a (.locking request)
  let s₂ := { s₁.moveAppender a (.pushing request) with queueLocker := some (.inr a) }
  have hcall : next s₀ (.call a request) = some s₁ := rfl
  have hlock : next s₁ (.lock (.inr a)) = some s₂ := by
    have hpc : s₁.appender a = .locking request := Function.update_self ..
    have hfree : s₁.queueLocker = none := rfl
    simp only [next, hpc, hfree, s₂]
  have hpush : next s₂ (.push a) = some (s₂.push a request) := by
    have hpc : s₂.appender a = .pushing request := Function.update_self ..
    simp only [next, hpc]
  -- these steps do not test `m_stop`
  have hcall' : (openLTS W A T).step s₀ (.call a request) s₁ := by
    refine ⟨hcall, ?_⟩
    rintro _ _ ⟨⟩
  have hlock' : (openLTS W A T).step s₁ (.lock (.inr a)) s₂ := by
    refine ⟨hlock, ?_⟩
    rintro _ _ ⟨⟩
  have hpush' : (openLTS W A T).step s₂ (.push a) (s₂.push a request) := by
    refine ⟨hpush, ?_⟩
    rintro _ _ ⟨⟩
  have hreach := (((reachable_tested Finset.univ).tail hcall').tail hlock').tail hpush'
  have hempty : ¬ s₂.workQueue.length > s₂.maxRequest := Nat.not_lt_zero _
  refine ⟨_, hreach, ?_, fun w => ?_⟩
  · rw [Pool.push, if_neg hempty]
    exact List.append_ne_nil_of_right_ne_nil _ (List.cons_ne_nil _ _)
  · rw [Pool.push, if_neg hempty]
    exact if_pos (Finset.mem_univ w)

/-- Before the destructor has run a worker has made no step or has returned. -/
structure Unused (s : Pool W A T) : Prop where
  worker : ∀ w, s.worker w = .testing ∨ s.worker w = .done
  taken : s.taken = []

omit [DecidableEq W] [DecidableEq A] in
theorem Unused.init : Unused (Pool.init W A T maxRequest) := ⟨fun _ => .inl rfl, rfl⟩

/-- A worker can only test `m_stop`, and returns. -/
theorem Unused.moves (h : Unused s) (hm : Moves s l s')
    (hstop : ∀ w b, l = .test w b → b = false) : s'.taken = s.taken ∧
      ((∃ w, l = .test w false ∧ s'.worker = Function.update s.worker w .done) ∨
        (∀ w b, l ≠ .test w b) ∧ s'.worker = s.worker) := by
  have hbusy : ∀ {w pc}, s.worker w = pc → pc ≠ .testing → pc ≠ .done → False := by
    intro w pc hpc htesting hdone
    rcases h.worker w with hw | hw <;> rw [hpc] at hw
    · exact htesting hw
    · exact hdone hw
  cases hm with
  | call | lockAppender | refuse | accept | unlockAppender | post =>
    exact ⟨rfl, .inr ⟨fun _ _ h => (by cases h), rfl⟩⟩
  | lockWorker hpc | unlockWorker hpc | wait hpc | interrupt hpc | takeNone hpc | takeSome hpc
    | process hpc => exact (hbusy hpc nofun nofun).elim
  | @test w stop hpc =>
    obtain rfl := hstop w stop rfl
    exact ⟨rfl, .inl ⟨w, rfl, rfl⟩⟩

theorem Unused.step (h : Unused s) (hm : Moves s l s')
    (hstop : ∀ w b, l = .test w b → b = false) : Unused s' := by
  obtain ⟨htaken, ⟨w, -, hw⟩ | ⟨-, hw⟩⟩ := h.moves hm hstop
  · refine ⟨fun v => ?_, htaken.trans h.taken⟩
    rw [hw]
    rcases eq_or_ne v w with rfl | hne
    · exact .inr (Function.update_self ..)
    · rw [Function.update_of_ne hne]
      exact h.worker v
  · exact ⟨hw ▸ h.worker, htaken.trans h.taken⟩

/-- Before the destructor has run a worker has left its loop iff it has tested `m_stop`. -/
theorem done_iff_tested {ops : List (Action W A T)}
    (h : (openLTS W A T).Run (.init W A T maxRequest) ops s) (w : W) :
    s.worker w = .done ↔ ∃ b, .test w b ∈ ops := by
  induction h with
  | nil =>
    refine iff_of_false ?_ ?_
    · rintro ⟨⟩
    · rintro ⟨b, hb⟩
      cases hb
  | @snoc ops l u v hrun hs ih =>
    have hu : Unused u := hrun.invariant Unused.init
      fun _ _ _ hu hs => hu.step (moves_of_next hs.1) fun w b hl => hs.2 w b hl
    simp only [List.mem_append, List.mem_singleton, exists_or, ← ih]
    obtain ⟨-, ⟨x, rfl, hx⟩ | ⟨hl, hx⟩⟩ :=
      hu.moves (moves_of_next hs.1) fun w b hl => hs.2 w b hl
    · rw [hx]
      rcases eq_or_ne w x with rfl | hne
      · exact iff_of_true (Function.update_self ..) (.inr ⟨false, rfl⟩)
      · rw [Function.update_of_ne hne]
        refine ⟨.inl, fun hor => hor.resolve_right ?_⟩
        rintro ⟨b, hb⟩
        cases hb
        exact hne rfl
    · rw [hx]
      exact ⟨.inl, fun hor => hor.resolve_right fun ⟨b, hb⟩ => hl w b hb.symm⟩

/-- Before the destructor has run no request is taken: all accepted ones are in the queue. -/
theorem workQueue_eq_accepted (h : (openLTS W A T).Reachable (.init W A T maxRequest) s) :
    s.workQueue = s.accepted := by
  have hunused : Unused s := h.invariant Unused.init
    fun _ _ _ hu hs => hu.step (moves_of_next hs.1) fun w b hl => hs.2 w b hl
  have haccounts : Accounts s :=
    h.invariant (Accounts.init maxRequest) fun _ _ _ hu hs => hu.step (moves_of_next hs.1)
  rw [haccounts.order, hunused.taken]
  rfl

/-- **Accepted requests are stranded, for the workers leave their loop while `m_stop` is `false`.**
Every pool with a thread that appends can come to a state in which a request is in the queue and
every worker has returned; the runs on which this does not happen are those all of whose steps are
manned; and a worker stays in its loop just until it tests `m_stop`, so that both is as it should be
on the runs in which no worker does. -/
theorem stranded_or_manned [Fintype W] :
    (Nonempty A → ∃ s, (openLTS W A T).Reachable (.init W A T maxRequest) s ∧ Stranded s) ∧
      ∀ ops s, (openLTS W A T).Run (.init W A T maxRequest) ops s →
        ((∀ pre u, pre <+: ops → (openLTS W A T).Run (.init W A T maxRequest) pre u → ¬ Stranded u) ↔
          ∀ pre op u, pre ++ [op] <+: ops →
            (openLTS W A T).Run (.init W A T maxRequest) pre u → Manned u op) ∧
        (∀ w, s.worker w = .done ↔ ∃ b, .test w b ∈ ops) ∧
        (Nonempty W →
          ((∀ pre u, pre <+: ops → (openLTS W A T).Run (.init W A T maxRequest) pre u →
              ¬ Stranded u ∧ ∀ w, u.worker w ≠ .done) ↔
            ∀ w b, .test w b ∉ ops)) := by
  refine ⟨fun ⟨a⟩ => reachable_stranded a none, fun ops s h => ⟨?_, done_iff_tested h, ?_⟩⟩
  · refine LTS.Run.forall_prefix_iff (deterministic _) h not_stranded_init (fun _ hu => hu) ?_ ?_
    · intro u op w _ hu hs
      exact not_stranded_of_manned hu (moves_of_next hs.1)
    · intro u op w _ hu hs
      exact manned_of_not_stranded hu (moves_of_next hs.1) hs.2
  · rintro ⟨w₀⟩
    constructor
    · intro hall w b hb
      exact (hall ops s (List.prefix_refl _) h).2 w ((done_iff_tested h w).2 ⟨b, hb⟩)
    · intro hnone pre u hpre hu
      have hstay : ∀ w, u.worker w ≠ .done := by
        intro w hw
        obtain ⟨b, hb⟩ := (done_iff_tested hu w).1 hw
        exact hnone w b (hpre.subset hb)
      exact ⟨fun hs => hstay w₀ (hs.2 w₀), hstay⟩

/-- A worker tests `m_stop`; then a request is appended, while the other worker has not come to its
test. -/
def appendOne : List (Action (Fin 2) Unit ℕ) :=
  [.test 0 false, .call () (some 7), .lock (.inr ()), .push (), .unlock (.inr ()), .post ()]

theorem stranded_or_manned_two :
    (∃ s, (openLTS (Fin 2) Unit ℕ).Reachable (.init (Fin 2) Unit ℕ 1) s ∧ Stranded s) ∧
      ∃ s, (openLTS (Fin 2) Unit ℕ).Run (.init (Fin 2) Unit ℕ 1) appendOne s ∧
        s.workQueue = [some 7] ∧ s.worker 0 = .done ∧ s.worker 1 ≠ .done ∧
        ∀ pre u, pre <+: appendOne →
          (openLTS (Fin 2) Unit ℕ).Run (.init (Fin 2) Unit ℕ 1) pre u → ¬ Stranded u := by
  have hstop : ∀ w b, .test w b ∈ appendOne → b = false := by simp +contextual [appendOne]
  have hplay : (appendOne.foldlM (fun u op => if Manned u op then next u op else none)
      (.init (Fin 2) Unit ℕ 1)).map (·.workQueue) = some [some 7] := by decide
  obtain ⟨s, hs, hqueue⟩ := Option.map_eq_some_iff.1 hplay
  have hrun : ((openLTS (Fin 2) Unit ℕ).guard Manned).Run _ _ s :=
    (LTS.run_guard_of_foldlM hs).mono fun u op v hop hs =>
      ⟨⟨hs.1, fun w b hl => hstop w b (hl ▸ hop)⟩, hs.2⟩
  have hopen := hrun.mono fun _ _ _ _ hs => hs.1
  obtain ⟨hreach, hall⟩ := @stranded_or_manned (Fin 2) Unit ℕ _ _ 1 _
  obtain ⟨hmanned, hdone, -⟩ := hall _ _ hopen
  have hother : ∀ b, .test 1 b ∉ appendOne := by simp [appendOne]
  refine ⟨hreach ⟨()⟩, s, hopen, hqueue, (hdone 0).2 ⟨false, by simp [appendOne]⟩, ?_, ?_⟩
  · exact fun hd => ((hdone 1).1 hd).elim hother
  · exact hmanned.2 fun pre op u hpre hu => hrun.guard_of_prefix (deterministic _) hpre hu

/-- A pool with one worker, to which one request is appended. -/
theorem stranded_one : ¬ ∀ s, (openLTS (Fin 1) Unit ℕ).Reachable (.init (Fin 1) Unit ℕ 1) s →
    ¬ Stranded s := by
  intro h
  let steps : List (Action (Fin 1) Unit ℕ) :=
    [.test 0 false, .call () (some 7), .lock (.inr ()), .push (), .unlock (.inr ()), .post ()]
  have hrun : steps.foldlM next (.init (Fin 1) Unit ℕ 1) = some _ := rfl
  have hstop : ∀ w b, .test w b ∈ steps → b = false := by simp +contextual [steps]
  exact h _ (reachable_of_foldlM hrun hstop) ⟨List.cons_ne_nil (some 7) [], by decide⟩

end ThreadPool

end LinuxServer
