import LinuxServer.Counting.Basic
import LinuxServer.LTS.Basic

/-!
# The condition variable

The class `cond` of `locker.cc`: `wait` locks the mutex of the object, waits and unlocks it again;
`signal` does not lock it.

* `ThreadPc`: where a thread is in `wait`.
* `State`: the members, the threads, and a record of the calls and of what they did.
* `next`, `condLTS`: one step of one thread, or a call of `signal`.
* `Accounts s`: each return has its wake-up.
* `ownLTS`: the steps that need no call and no wake-up.

`counts_of_run`: one thread at most is inside the mutex, and no call of `wait` returns without a
wake-up of its own.  `rests_of_run`: left alone the threads come to rest, and where they rest a
signal that came before its waiter was blocked has helped nobody.
-/

namespace LinuxServer

namespace Cond

open Counting

variable {ι : Type*}

/-- Where a thread is in `wait`. -/
inductive ThreadPc where
  /-- Not in `wait`. -/
  | idle
  /-- At `pthread_mutex_lock`. -/
  | locking
  /-- At `pthread_cond_wait`. -/
  | waiting
  /-- In `pthread_cond_wait`, which has unlocked the mutex. -/
  | blocked
  /-- In `pthread_cond_wait`, woken and without the mutex. -/
  | relocking
  /-- At `pthread_mutex_unlock`.  `pthread_cond_wait` has been given a mutex that its caller holds,
  and does not fail. -/
  | unlocking
  deriving DecidableEq, Repr

/-- The mutex and the threads.  The condition variable is the threads that are blocked.  Counted are
the calls of `wait` and those that have returned, the calls of `signal` and those that found nobody,
and the spurious wake-ups. -/
structure State (ι : Type*) where
  mutex : Option ι
  place : ι → ThreadPc
  called : ℕ
  returned : ℕ
  signals : ℕ
  lost : ℕ
  spurious : ℕ

/-- The steps. -/
inductive Action (ι : Type*) where
  /-- `wait` is called. -/
  | call (i : ι)
  | lock (i : ι)
  /-- `pthread_cond_wait` unlocks the mutex and blocks the thread at once. -/
  | block (i : ι)
  /-- `signal` is called, and wakes a thread if there is one to wake. -/
  | signal (woken : Option ι)
  /-- A thread wakes up without a signal. -/
  | wake (i : ι)
  /-- `pthread_cond_wait` locks the mutex again and returns. -/
  | relock (i : ι)
  | unlock (i : ι)
  deriving DecidableEq, Repr

/-- The object after its constructor. -/
def State.init (ι : Type*) : State ι := ⟨none, fun _ => .idle, 0, 0, 0, 0, 0⟩

section Step

variable [DecidableEq ι]

/-- The thread `i` goes to `pc`. -/
def State.goTo (s : State ι) (i : ι) (pc : ThreadPc) : State ι :=
  { s with place := Function.update s.place i pc }

variable [Fintype ι]

/-- One step, if it is possible. -/
def next (s : State ι) : Action ι → Option (State ι)
  | .call i => match s.place i with
    | .idle => some { s.goTo i .locking with called := s.called + 1 }
    | _ => none
  | .lock i => match s.place i, s.mutex with
    | .locking, none => some { s.goTo i .waiting with mutex := some i }
    | _, _ => none
  | .block i => match s.place i with
    | .waiting => some { s.goTo i .blocked with mutex := none }
    | _ => none
  | .signal none =>
    if ∀ i, s.place i ≠ .blocked then
      some { s with signals := s.signals + 1, lost := s.lost + 1 }
    else none
  | .signal (some i) => match s.place i with
    | .blocked => some { s.goTo i .relocking with signals := s.signals + 1 }
    | _ => none
  | .wake i => match s.place i with
    | .blocked => some { s.goTo i .relocking with spurious := s.spurious + 1 }
    | _ => none
  | .relock i => match s.place i, s.mutex with
    | .relocking, none => some { s.goTo i .unlocking with mutex := some i }
    | _, _ => none
  | .unlock i => match s.place i with
    | .unlocking => some { s.goTo i .idle with mutex := none, returned := s.returned + 1 }
    | _ => none

/-- The steps of all threads. -/
def condLTS (ι : Type*) [DecidableEq ι] [Fintype ι] : LTS (State ι) (Action ι) := .ofNext next

end Step

/-- What a step can do. -/
inductive Moves [DecidableEq ι] (s : State ι) : Action ι → State ι → Prop where
  | call {i} : s.place i = .idle →
      Moves s (.call i) { s.goTo i .locking with called := s.called + 1 }
  | lock {i} : s.place i = .locking → s.mutex = none →
      Moves s (.lock i) { s.goTo i .waiting with mutex := some i }
  | block {i} : s.place i = .waiting →
      Moves s (.block i) { s.goTo i .blocked with mutex := none }
  | signalNone : (∀ i, s.place i ≠ .blocked) →
      Moves s (.signal none) { s with signals := s.signals + 1, lost := s.lost + 1 }
  | signal {i} : s.place i = .blocked →
      Moves s (.signal (some i)) { s.goTo i .relocking with signals := s.signals + 1 }
  | wake {i} : s.place i = .blocked →
      Moves s (.wake i) { s.goTo i .relocking with spurious := s.spurious + 1 }
  | relock {i} : s.place i = .relocking → s.mutex = none →
      Moves s (.relock i) { s.goTo i .unlocking with mutex := some i }
  | unlock {i} : s.place i = .unlocking →
      Moves s (.unlock i) { s.goTo i .idle with mutex := none, returned := s.returned + 1 }

section

variable [DecidableEq ι] [Fintype ι] {s s' u : State ι} {l : Action ι} {ls : List (Action ι)}

/-- Each line of `wait` and `signal` is a case of its own. -/
theorem moves_of_next (h : next s l = some s') : Moves s l s' := by
  cases l with
  | call i | block i | wake i | unlock i =>
    simp only [next] at h
    split at h
    · rename_i hpc
      obtain rfl := Option.some.inj h
      constructor
      exact hpc
    · cases h
  | lock i | relock i =>
    simp only [next] at h
    split at h
    · rename_i hpc hfree
      obtain rfl := Option.some.inj h
      constructor
      · exact hpc
      · exact hfree
    · cases h
  | signal woken =>
    cases woken with
    | none =>
      simp only [next] at h
      split_ifs at h with hnobody
      obtain rfl := Option.some.inj h
      exact .signalNone hnobody
    | some i =>
      simp only [next] at h
      split at h
      · rename_i hpc
        obtain rfl := Option.some.inj h
        exact .signal hpc
      · cases h

/-! ### Wake-ups and returns -/

/-- The thread is between locking and unlocking. -/
def ThreadPc.Holds (pc : ThreadPc) : Prop := pc = .waiting ∨ pc = .unlocking

/-- What a thread counts among those in `wait`. -/
def ThreadPc.inside : ThreadPc → ℕ
  | .idle => 0
  | _ => 1

/-- What a thread counts among those that are woken and have not returned. -/
def ThreadPc.woken : ThreadPc → ℕ
  | .relocking | .unlocking => 1
  | _ => 0

/-- The mutex is with the thread that is inside it, and each return has its wake-up. -/
structure Accounts (s : State ι) : Prop where
  holds_iff : ∀ i, (s.place i).Holds ↔ s.mutex = some i
  called_eq : s.called = s.returned + total ThreadPc.inside s.place
  returned_eq : s.returned + total ThreadPc.woken s.place + s.lost = s.signals + s.spurious

omit [DecidableEq ι] in
theorem accounts_init : Accounts (State.init ι) where
  holds_iff i := by simp [State.init, ThreadPc.Holds]
  called_eq := by simp [State.init, total, ThreadPc.inside]
  returned_eq := by simp [State.init, total, ThreadPc.woken]

theorem Accounts.move {i : ι} {pc : ThreadPc} (h : Accounts s)
    (hplace : s'.place = Function.update s.place i pc) (hi : pc.Holds ↔ s'.mutex = some i)
    (hothers : ∀ j ≠ i, s'.mutex = some j ↔ s.mutex = some j)
    (hcalled : s'.called + s.returned + (s.place i).inside = s.called + s'.returned + pc.inside)
    (hreturned : s'.returned + pc.woken + s'.lost + (s.signals + s.spurious) =
      s.returned + (s.place i).woken + s.lost + (s'.signals + s'.spurious)) : Accounts s' := by
  have hinside := total_update ThreadPc.inside s.place i pc
  have hwoken := total_update ThreadPc.woken s.place i pc
  rw [← hplace] at hinside hwoken
  refine ⟨fun j => ?_, ?_, ?_⟩
  · rw [hplace]
    rcases eq_or_ne j i with rfl | hne
    · rwa [Function.update_self]
    · rw [Function.update_of_ne hne, h.holds_iff j, hothers j hne]
  · have hcount := h.called_eq
    omega
  · have hcount := h.returned_eq
    omega

theorem Accounts.step (h : Accounts s) (hm : Moves s l s') : Accounts s' := by
  cases hm with
  | signalNone =>
    refine ⟨h.holds_iff, h.called_eq, ?_⟩
    have hcount := h.returned_eq
    dsimp only
    omega
  | @call i hpc | @signal i hpc | @wake i hpc =>
    have hnot : ¬ s.mutex = some i := by
      rw [← h.holds_iff i, hpc]
      simp [ThreadPc.Holds]
    refine h.move rfl ?_ (fun _ _ => Iff.rfl) ?_ ?_
    · exact iff_of_false (by simp [ThreadPc.Holds]) hnot
    all_goals simp only [hpc, State.goTo, ThreadPc.inside, ThreadPc.woken] <;> omega
  | @lock i hpc hfree | @relock i hpc hfree =>
    refine h.move rfl ?_ (fun j hne => ?_) ?_ ?_
    · exact iff_of_true (by simp [ThreadPc.Holds]) rfl
    · rw [hfree]
      exact iff_of_false (fun heq => hne (Option.some.inj heq).symm) nofun
    all_goals simp only [hpc, State.goTo, ThreadPc.inside, ThreadPc.woken]
  | @block i hpc | @unlock i hpc =>
    have hmutex : s.mutex = some i := (h.holds_iff i).1 (by simp [ThreadPc.Holds, hpc])
    refine h.move rfl ?_ (fun j hne => ?_) ?_ ?_
    · exact iff_of_false (by simp [ThreadPc.Holds]) nofun
    · rw [hmutex]
      exact iff_of_false nofun fun heq => hne (Option.some.inj heq).symm
    all_goals simp only [hpc, State.goTo, ThreadPc.inside, ThreadPc.woken] <;> omega

theorem accounts_of_run (hrun : (condLTS ι).Run (.init ι) ls s) : Accounts s :=
  hrun.invariant accounts_init fun _ _ _ h hs => h.step (moves_of_next hs)

/-- **No return without a wake-up.**  In every interleaving one thread at most is between locking
and unlocking, and the calls of `wait` that have returned are not more than the calls of `signal`
that found somebody to wake and the spurious wake-ups. -/
theorem counts_of_run (hrun : (condLTS ι).Run (.init ι) ls s) :
    (∀ i j, (s.place i).Holds → (s.place j).Holds → i = j) ∧
      s.returned + s.lost ≤ s.signals + s.spurious ∧ s.returned ≤ s.called := by
  have h := accounts_of_run hrun
  refine ⟨fun i j hi hj => ?_, ?_, ?_⟩
  · exact Option.some.inj (((h.holds_iff i).1 hi).symm.trans ((h.holds_iff j).1 hj))
  · have hcount := h.returned_eq
    omega
  · have hcount := h.called_eq
    omega

/-- Two threads wait, and one of them is woken. -/
theorem counts_of_run_two : ∃ s : State Bool, (condLTS Bool).Run (.init Bool)
    [.call true, .lock true, .block true, .call false, .lock false, .block false,
      .signal (some true), .relock true] s ∧ s.mutex = some true ∧
    s.returned + s.lost ≤ s.signals + s.spurious := by
  have hrun : (condLTS Bool).Run (.init Bool) [.call true, .lock true, .block true, .call false,
    .lock false, .block false, .signal (some true), .relock true] _ := LTS.run_of_foldlM rfl
  exact ⟨_, hrun, rfl, (counts_of_run hrun).2.1⟩

/-! ### Where the threads rest -/

/-- The steps of a thread until it is blocked or has returned. -/
def ThreadPc.rank : ThreadPc → ℕ
  | .locking | .relocking => 2
  | .waiting | .unlocking => 1
  | .idle | .blocked => 0

/-- A step that needs neither a call nor a wake-up. -/
def Action.isOwn : Action ι → Bool
  | .call _ | .signal _ | .wake _ => false
  | _ => true

/-- The steps that the threads make when they are left alone. -/
def ownLTS (ι : Type*) [DecidableEq ι] [Fintype ι] : LTS (State ι) (Action ι) :=
  (condLTS ι).guard fun _ l => l.isOwn

/-- The thread is in `wait`, and has still to be woken. -/
def ThreadPc.Waits : ThreadPc → Prop
  | .locking | .waiting | .blocked => True
  | .idle | .relocking | .unlocking => False

/-- `s'` has the counts of `s`, but for the calls that have returned, and the same threads have
still to be woken. -/
structure Same (s s' : State ι) : Prop where
  called : s'.called = s.called
  signals : s'.signals = s.signals
  lost : s'.lost = s.lost
  spurious : s'.spurious = s.spurious
  waits : ∀ i, (s'.place i).Waits ↔ (s.place i).Waits

/-- Nobody has anything left to do of what was to be done in `s`: the threads are not in `wait`, or
blocked. -/
structure Rested (s s' : State ι) : Prop where
  mutex : s'.mutex = none
  place : ∀ i, s'.place i = .idle ∨ s'.place i = .blocked
  /-- Each wake-up has made a call return. -/
  returned : s'.returned + s.lost = s.signals + s.spurious
  /-- The others wait for a wake-up that is still to come. -/
  blocked : s.called = s'.returned + count (· = ThreadPc.blocked) s'.place
  /-- They are the threads that had not been woken in `s`, blocked or not. -/
  blocked_iff : ∀ i, s'.place i = .blocked ↔ (s.place i).Waits

omit [Fintype ι] in
theorem Same.waits_move {i : ι} {pc : ThreadPc} (h : Same s u) (hpc : pc.Waits ↔ (u.place i).Waits)
    (j : ι) : (Function.update u.place i pc j).Waits ↔ (s.place j).Waits := by
  rw [← h.waits j]
  by_cases hj : j = i
  · subst hj
    rw [Function.update_self]
    exact hpc
  · rw [Function.update_of_ne hj]

omit [Fintype ι] in
/-- What a thread does by itself leaves the counts alone, and wakes nobody. -/
theorem Same.step (h : Same s u) (hm : Moves u l s') (hown : l.isOwn) : Same s s' := by
  cases hm with
  | call | signalNone | signal | wake => cases hown
  | lock hpc | block hpc | relock hpc | unlock hpc =>
    exact ⟨h.called, h.signals, h.lost, h.spurious,
      h.waits_move (by rw [hpc]; simp only [ThreadPc.Waits])⟩

theorem rank_lt_of_move {i : ι} {pc : ThreadPc} (hplace : s'.place = Function.update s.place i pc)
    (hrank : pc.rank < (s.place i).rank) :
    total ThreadPc.rank s'.place < total ThreadPc.rank s.place := by
  have hmove := total_update ThreadPc.rank s.place i pc
  rw [hplace]
  omega

/-- Every step that a thread makes by itself is one less to make. -/
theorem Moves.rank_lt (hm : Moves s l s') (hown : l.isOwn) :
    total ThreadPc.rank s'.place < total ThreadPc.rank s.place := by
  cases hm with
  | call | signalNone | signal | wake => cases hown
  | lock hpc | block hpc | relock hpc | unlock hpc =>
    refine rank_lt_of_move rfl ?_
    rw [hpc]
    decide

/-- No deadlock: the thread that has the mutex can go on, and so can the one that wants it. -/
theorem rested_of_stuck (h : Accounts u) (hsame : Same s u)
    (hstuck : ∀ l v, ¬ (ownLTS ι).step u l v) : Rested s u := by
  have hnext : ∀ l : Action ι, l.isOwn → next u l = none := by
    intro l hown
    by_contra hsome
    obtain ⟨v, hv⟩ := Option.ne_none_iff_exists'.1 hsome
    exact hstuck l v ⟨hv, hown⟩
  have hfree : u.mutex = none := by
    by_contra hheld
    obtain ⟨i, hi⟩ := Option.ne_none_iff_exists'.1 hheld
    rcases (h.holds_iff i).2 hi with hpc | hpc
    · simpa [next, hpc] using hnext (.block i) rfl
    · simpa [next, hpc] using hnext (.unlock i) rfl
  have hplace : ∀ i, u.place i = .idle ∨ u.place i = .blocked := by
    intro i
    cases hpc : u.place i with
    | idle => exact .inl rfl
    | blocked => exact .inr rfl
    | locking => simpa [next, hpc, hfree] using hnext (.lock i) rfl
    | waiting => simpa [next, hpc] using hnext (.block i) rfl
    | relocking => simpa [next, hpc, hfree] using hnext (.relock i) rfl
    | unlocking => simpa [next, hpc] using hnext (.unlock i) rfl
  refine ⟨hfree, hplace, ?_, ?_, fun i => ?_⟩
  · have hwoken : total ThreadPc.woken u.place = 0 :=
      Finset.sum_eq_zero fun i _ => by rcases hplace i with hpc | hpc <;> rw [hpc] <;> rfl
    have hcount := h.returned_eq
    rw [hwoken, hsame.lost, hsame.signals, hsame.spurious] at hcount
    exact hcount
  · have hblocked : total ThreadPc.inside u.place = count (· = ThreadPc.blocked) u.place := by
      rw [count_eq_sum]
      refine Finset.sum_congr rfl fun i _ => ?_
      rcases hplace i with hpc | hpc <;> rw [hpc] <;> rfl
    rw [← hsame.called, h.called_eq, hblocked]
  · rw [← hsame.waits i]
    rcases hplace i with hpc | hpc <;> rw [hpc] <;> simp [ThreadPc.Waits]

/-- **A signal does not wait.**  From every state of a run the steps that the threads make by
themselves come to an end in every order.  Wherever they end the mutex is free, every thread is out
of `wait` or blocked, and as many calls have returned as there had been wake-ups.  The threads that
are blocked are those that had not been woken, whether they were blocked already or not: a call of
`signal` that came before its waiter was blocked has helped nobody. -/
theorem rests_of_run (hrun : (condLTS ι).Run (.init ι) ls s) :
    (∀ ls' u, (ownLTS ι).Run s ls' u → ls'.length ≤ total ThreadPc.rank s.place) ∧
      (∃ u, (ownLTS ι).Reachable s u ∧ Rested s u) ∧
      ∀ u, (ownLTS ι).Reachable s u → (∀ l v, ¬ (ownLTS ι).step u l v) → Rested s u :=
  LTS.comes_to_rest (I := fun u => Accounts u ∧ Same s u) (fun u => total ThreadPc.rank u.place)
    ⟨accounts_of_run hrun, ⟨rfl, rfl, rfl, rfl, fun _ => .rfl⟩⟩
    (fun _ _ _ h hs => ⟨h.1.step (moves_of_next hs.1), h.2.step (moves_of_next hs.1) hs.2⟩)
    (fun _ _ _ _ hs => (moves_of_next hs.1).rank_lt hs.2)
    fun _ h hstuck => rested_of_stuck h.1 h.2 hstuck

/-- A thread is blocked, and another one has the mutex and is not blocked yet, when `signal` is
called. -/
def signalledEarly : List (Action Bool) :=
  [.call false, .lock false, .block false, .call true, .lock true, .signal (some false)]

/-- The second thread is never woken. -/
theorem rests_of_run_early : ∃ s u, (condLTS Bool).Run (.init Bool) signalledEarly s ∧
    (ownLTS Bool).Reachable s u ∧ u.place true = .blocked ∧ u.place false = .idle ∧
      u.returned = 1 := by
  have hrun : (condLTS Bool).Run (.init Bool) signalledEarly _ := LTS.run_of_foldlM rfl
  obtain ⟨-, ⟨u, hu, hrested⟩, -⟩ := rests_of_run hrun
  have hblocked : u.place true = .blocked := (hrested.blocked_iff true).2 trivial
  have hidle : u.place false = .idle :=
    (hrested.place false).resolve_right fun h => (hrested.blocked_iff false).1 h
  exact ⟨_, u, hrun, hu, hblocked, hidle, Nat.add_right_cancel hrested.returned⟩

end

end Cond

end LinuxServer
