import LinuxServer.LTS.Basic
import Mathlib.Data.Nat.Notation
import Mathlib.Logic.Function.Basic

/-!
# Agendas

What a timer facility is for, with the time counted in ticks: timers `α` are armed for a tick to
come, may be cancelled before, and fire in the tick they are due at.

* `Agenda α`: the ticks so far, when each timer is due, and a record of what happened.
* `agendaLTS`: one event after the other.

* `Booked s p d`: the timer `p` was armed for the tick `d`.

`firedAt_of_due`: a timer that is due and is not cancelled fires in its tick and in no other one.
`silent`: a timer that is not due any more does not fire again.
-/

namespace LinuxServer

/-- When each timer is due, after `now` ticks.  Recorded are the timers armed and cancelled and,
with the number of the tick, those that fired. -/
structure Agenda (α : Type*) where
  now : ℕ
  due : α → Option ℕ
  armed : List α
  cancelled : List α
  fired : List (ℕ × α)

namespace Agenda

variable {α : Type*} [DecidableEq α]

/-- What happens to an agenda. -/
inductive Event (α : Type*) where
  | arm (p : α) (d : ℕ)
  | cancel (p : α)
  | tick
  /-- Something that does not concern it. -/
  | skip
  deriving DecidableEq, Repr

/-- No timer. -/
def empty (α : Type*) : Agenda α := ⟨0, fun _ => none, [], [], []⟩

/-- The ticks in which a timer fired. -/
def firedAt (s : Agenda α) (p : α) : List ℕ := (s.fired.filter fun e => e.2 = p).map Prod.fst

/-- A timer is armed once, for a tick to come; a tick fires, each once, the timers that are due. -/
inductive Step : Agenda α → Event α → Agenda α → Prop where
  | arm {s : Agenda α} {p : α} {d : ℕ} : p ∉ s.armed → s.now < d →
      Step s (.arm p d)
        { s with due := Function.update s.due p (some d), armed := s.armed ++ [p] }
  | cancel {s : Agenda α} {p : α} : s.due p ≠ none →
      Step s (.cancel p)
        { s with due := Function.update s.due p none, cancelled := s.cancelled ++ [p] }
  | tick {s : Agenda α} {ps : List α} : ps.Nodup →
      (∀ p, p ∈ ps ↔ s.due p = some (s.now + 1)) →
      Step s .tick
        { s with
          now := s.now + 1
          due := fun p => if s.due p = some (s.now + 1) then none else s.due p
          fired := s.fired ++ ps.map fun p => (s.now + 1, p) }
  | skip {s : Agenda α} : Step s .skip s

/-- The events of an agenda. -/
def agendaLTS (α : Type*) [DecidableEq α] : LTS (Agenda α) (Event α) where
  step := Step

/-- The timers that are due were armed and neither cancelled nor fired, and are due later. -/
structure WF (s : Agenda α) : Prop where
  later : ∀ p d, s.due p = some d → s.now < d
  held : ∀ p, s.due p ≠ none ↔ p ∈ s.armed ∧ p ∉ s.cancelled ∧ p ∉ s.fired.map Prod.snd
  armed : ∀ p, p ∈ s.cancelled ∨ p ∈ s.fired.map Prod.snd → p ∈ s.armed

variable {s s' : Agenda α} {ev : Event α} {evs : List (Event α)} {p : α} {d : ℕ}

omit [DecidableEq α] in
theorem wf_empty : (empty α).WF := by
  refine ⟨fun p d h => ?_, fun p => ?_, fun p h => ?_⟩
  · cases h
  · simp [empty]
  · simp [empty] at h

theorem WF.step (h : s.WF) (hs : Step s ev s') : s'.WF := by
  cases hs with
  | @arm p d hnew hd =>
    refine ⟨fun q e hq => ?_, fun q => ?_, fun q hq => List.mem_append_left _ (h.armed q hq)⟩
    · rcases eq_or_ne q p with rfl | hne
      · obtain rfl : d = e := by simpa using hq
        exact hd
      · exact h.later q e (by simpa [Function.update_of_ne hne] using hq)
    · rcases eq_or_ne q p with rfl | hne
      · have hcancelled : q ∉ s.cancelled := fun hq => hnew (h.armed q (.inl hq))
        have hfired : q ∉ s.fired.map Prod.snd := fun hq => hnew (h.armed q (.inr hq))
        exact iff_of_true (by simp) ⟨by simp, hcancelled, hfired⟩
      · dsimp only
        rw [Function.update_of_ne hne, h.held]
        simp [hne]
  | @cancel p hp =>
    have harmed := ((h.held p).1 hp).1
    refine ⟨fun q e hq => ?_, fun q => ?_, fun q hq => ?_⟩
    · rcases eq_or_ne q p with rfl | hne
      · simp at hq
      · exact h.later q e (by simpa [Function.update_of_ne hne] using hq)
    · rcases eq_or_ne q p with rfl | hne
      · exact iff_of_false (by simp) (by simp)
      · dsimp only
        rw [Function.update_of_ne hne, h.held]
        simp [hne]
    · simp only [List.mem_append, List.mem_singleton] at hq
      rcases hq with (hq | rfl) | hq
      · exact h.armed q (.inl hq)
      · exact harmed
      · exact h.armed q (.inr hq)
  | @tick ps hnodup hps =>
    have hfired : ∀ q, q ∈ (s.fired ++ ps.map fun p => (s.now + 1, p)).map Prod.snd ↔
        q ∈ s.fired.map Prod.snd ∨ s.due q = some (s.now + 1) := fun q => by
      rw [List.map_append, List.mem_append, List.map_map, ← hps]
      simp
    refine ⟨fun q e hq => ?_, fun q => ?_, fun q hq => ?_⟩
    · dsimp only at hq ⊢
      split_ifs at hq with hdue
      have hlater := h.later q e hq
      have hne : e ≠ s.now + 1 := fun he => hdue (he ▸ hq)
      omega
    · dsimp only
      rw [hfired]
      split_ifs with hdue
      · simp [hdue]
      · rw [h.held]
        simp [hdue]
    · rcases hq with hq | hq
      · exact h.armed q (.inl hq)
      · rcases (hfired q).1 hq with hq | hdue
        · exact h.armed q (.inr hq)
        · exact ((h.held q).1 (by simp [hdue])).1
  | skip => exact h

theorem firedAt_of_step (hs : Step s ev s') : s'.firedAt p =
    s.firedAt p ++ if ev = .tick ∧ s.due p = some (s.now + 1) then [s.now + 1] else [] := by
  cases hs with
  | arm | cancel | skip => simp [firedAt]
  | @tick ps hnodup hps =>
    have hnew : ((ps.map fun q => (s.now + 1, q)).filter fun e => e.2 = p).map Prod.fst =
        List.replicate (ps.count p) (s.now + 1) := by
      rw [List.filter_map, List.map_map]
      show (ps.filter fun q => q = p).map (fun _ => s.now + 1) = _
      rw [List.filter_eq, List.map_replicate]
    rw [firedAt, List.filter_append, List.map_append, hnew, hnodup.count]
    simp only [hps, true_and]
    split_ifs <;> rfl

theorem due_of_step (hs : Step s ev s') (hp : p ∈ s.armed) (hev : ev ≠ .cancel p) : s'.due p =
    if ev = .tick ∧ s.due p = some (s.now + 1) then none else s.due p := by
  cases hs with
  | @arm q d hnew =>
    have hne : p ≠ q := fun h => hnew (h ▸ hp)
    simp [Function.update_of_ne hne]
  | @cancel q hq =>
    have hne : p ≠ q := fun h => hev (h ▸ rfl)
    simp [Function.update_of_ne hne]
  | tick => simp
  | skip => simp

theorem due_of_arm (hs : Step s (.arm p d) s') : s'.due p = some d := by
  cases hs
  exact Function.update_self ..

theorem due_of_cancel (hs : Step s (.cancel p) s') : s'.due p = none := by
  cases hs
  exact Function.update_self ..

theorem armed_of_step (hs : Step s ev s') (hp : p ∈ s.armed) : p ∈ s'.armed := by
  cases hs with
  | arm => exact List.mem_append_left _ hp
  | _ => exact hp

theorem now_of_step (hs : Step s ev s') : s'.now = s.now + if ev = .tick then 1 else 0 := by
  cases hs <;> rfl

theorem WF.firedAt_eq_nil (h : s.WF) (hp : s.due p ≠ none) : s.firedAt p = [] := by
  have hfired := ((h.held p).1 hp).2.2
  rw [firedAt, List.map_eq_nil_iff, List.filter_eq_nil_iff]
  intro e he hep
  exact hfired (List.mem_map.2 ⟨e, he, of_decide_eq_true hep⟩)

/-- The timer `p` was armed for the tick `d`: it is due, or it has fired in time, or it was
cancelled. -/
structure Booked (s : Agenda α) (p : α) (d : ℕ) : Prop where
  armed : p ∈ s.armed
  fate : p ∈ s.cancelled ∨ (s.due p = some d ∧ s.firedAt p = []) ∨
    (s.due p = none ∧ d ≤ s.now ∧ s.firedAt p = [d])

theorem WF.booked (h : s.WF) (hd : s.due p = some d) : s.Booked p d := by
  have hne : s.due p ≠ none := by simp [hd]
  exact ⟨((h.held p).1 hne).1, .inr (.inl ⟨hd, h.firedAt_eq_nil hne⟩)⟩

theorem cancelled_of_step (hs : Step s ev s') :
    p ∈ s'.cancelled ↔ p ∈ s.cancelled ∨ ev = .cancel p := by
  cases hs with
  | cancel => simp [eq_comm]
  | arm | tick | skip => simp

theorem Booked.step (hb : s.Booked p d) (hs : Step s ev s') : s'.Booked p d := by
  refine ⟨armed_of_step hs hb.armed, ?_⟩
  rw [cancelled_of_step hs]
  by_cases hev : ev = .cancel p
  · exact .inl (.inr hev)
  rw [due_of_step hs hb.armed hev, firedAt_of_step hs, now_of_step hs]
  rcases hb.fate with hcancelled | ⟨hdue, hfired⟩ | ⟨hdue, hle, hfired⟩
  · exact .inl (.inl hcancelled)
  · by_cases hnow : ev = .tick ∧ s.due p = some (s.now + 1)
    · obtain rfl : d = s.now + 1 := Option.some.inj (hdue.symm.trans hnow.2)
      exact .inr (.inr (by simp [hnow, hfired]))
    · exact .inr (.inl (by rw [if_neg hnow, if_neg hnow]; simp [hdue, hfired]))
  · exact .inr (.inr (by simp [hdue, hfired]; omega))

theorem WF.run (h : s.WF) (hrun : (agendaLTS α).Run s evs s') : s'.WF :=
  hrun.invariant h fun _ _ _ hu hs => hu.step hs

theorem Booked.run (hb : s.Booked p d) (hrun : (agendaLTS α).Run s evs s') : s'.Booked p d :=
  hrun.invariant (I := fun u => u.Booked p d) hb fun _ _ _ hu hs => hu.step hs

theorem cancelled_of_run (hrun : (agendaLTS α).Run s evs s') :
    p ∈ s'.cancelled ↔ p ∈ s.cancelled ∨ .cancel p ∈ evs := by
  induction hrun with
  | nil => simp
  | snoc _ hs ih =>
    rw [cancelled_of_step hs, ih, List.mem_append, List.mem_singleton, or_assoc]
    simp only [eq_comm]

/-- Unless it is cancelled, a timer that was armed fires once in its tick, and in no other. -/
theorem Booked.firedAt_eq (hb : s.Booked p d) (h : s.WF) (hp : p ∉ s.cancelled) :
    s.firedAt p = if d ≤ s.now then [d] else [] := by
  rcases hb.fate with hcancelled | ⟨hdue, hfired⟩ | ⟨-, hle, hfired⟩
  · exact absurd hcancelled hp
  · rw [hfired, if_neg (not_le.2 (h.later p d hdue))]
  · rw [hfired, if_pos hle]

/-- **A timer fires on time.**  Unless it is cancelled, a timer that is due at the tick `d` fires
once in this tick, and in no other. -/
theorem firedAt_of_due (h : s.WF) (hd : s.due p = some d) (hrun : (agendaLTS α).Run s evs s')
    (hcancel : .cancel p ∉ evs) : s'.firedAt p = if d ≤ s'.now then [d] else [] := by
  have hne : s.due p ≠ none := by simp [hd]
  refine ((h.booked hd).run hrun).firedAt_eq (h.run hrun) ?_
  rw [cancelled_of_run hrun, not_or]
  exact ⟨((h.held p).1 hne).2.1, hcancel⟩

theorem exists_arms {l : List (α × ℕ)} (h : s.WF) (hnodup : (l.map Prod.fst).Nodup)
    (hnew : ∀ e ∈ l, e.1 ∉ s.armed ∧ s.now < e.2) :
    ∃ s', (agendaLTS α).Run s (l.map fun e => .arm e.1 e.2) s' ∧ s'.now = s.now ∧
      s'.armed = s.armed ++ l.map Prod.fst ∧ s'.cancelled = s.cancelled ∧ s'.fired = s.fired ∧
      ∀ p d, s'.due p = some d ↔ (p, d) ∈ l ∨ s.due p = some d := by
  induction l generalizing s with
  | nil => exact ⟨s, .nil, rfl, by simp, rfl, rfl, by simp⟩
  | cons e l ih =>
    obtain ⟨q, k⟩ := e
    obtain ⟨hq, hnodup⟩ := List.nodup_cons.1 hnodup
    obtain ⟨hfree, hlater⟩ := hnew (q, k) List.mem_cons_self
    have hstep := Step.arm hfree hlater
    obtain ⟨s', hrun, hnow, harmed, hcancelled, hfired, hdue⟩ := ih (h.step hstep) hnodup <| by
      intro e he
      obtain ⟨hnot, hlt⟩ := hnew e (List.mem_cons_of_mem _ he)
      refine ⟨fun hmem => ?_, hlt⟩
      rcases List.mem_append.1 hmem with hmem | hmem
      · exact hnot hmem
      · exact hq (List.mem_map.2 ⟨e, he, List.mem_singleton.1 hmem⟩)
    refine ⟨s', .cons hstep hrun, hnow, ?_, hcancelled, hfired, fun p d => ?_⟩
    · simp [harmed]
    · have hnone : s.due q = none := by
        by_contra hd
        exact hfree ((h.held q).1 hd).1
      rw [hdue, List.mem_cons, Prod.mk.injEq]
      dsimp only
      rcases eq_or_ne p q with rfl | hne
      · rw [Function.update_self, hnone]
        simp [or_comm, eq_comm]
      · rw [Function.update_of_ne hne]
        simp [hne]

theorem silent (harmed : p ∈ s.armed) (hdue : s.due p = none)
    (hrun : (agendaLTS α).Run s evs s') : s'.firedAt p = s.firedAt p := by
  have hinv : p ∈ s'.armed ∧ s'.due p = none ∧ s'.firedAt p = s.firedAt p := by
    induction hrun with
    | nil => exact ⟨harmed, hdue, rfl⟩
    | @snoc evs ev u w _ hs ih =>
      obtain ⟨harmed, hdue, hfired⟩ := ih
      refine ⟨armed_of_step hs harmed, ?_, ?_⟩
      · by_cases hev : ev = .cancel p
        · exact due_of_cancel (hev ▸ hs)
        · rw [due_of_step hs harmed hev, hdue, ite_self]
      · rw [firedAt_of_step hs, hdue, hfired]
        simp
  exact hinv.2.2

end Agenda

end LinuxServer
