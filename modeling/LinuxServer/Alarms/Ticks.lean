import LinuxServer.Agenda.Basic
import LinuxServer.Alarms.Basic
import Mathlib.Data.Int.Order.Basic

/-!
# Agendas are alarms

An agenda counts its ticks.  It keeps the same alarms as one whose ticks are told the time, when
this is the number of the tick.

* `Counts a s`: the alarms `s` are those of the agenda `a`.
* `eventAt`: what an event of an agenda is for its alarms.

`Counts.step`: an agenda and alarms that are used in the same way have the same things due and
fire the same ones in the same ticks.
-/

namespace LinuxServer

namespace Alarms

variable {α : Type*} [DecidableEq α] {a a' : Agenda α} {s s' : Alarms α ℤ} {ev : Agenda.Event α}

/-- The alarms `s` are due at the ticks of the agenda `a`. -/
structure Counts (a : Agenda α) (s : Alarms α ℤ) : Prop where
  due : ∀ p, s.due p = (a.due p).map fun d : ℕ => (d : ℤ)
  armed : s.armed = a.armed
  fired : s.fired.Perm (a.fired.map fun e => (e.2, (e.1 : ℤ)))

/-- What an event is, after `now` ticks. -/
def eventAt (now : ℕ) : Agenda.Event α → Event α ℤ
  | .arm p d => .arm p d
  | .cancel p => .cancel p
  | .tick => .tick (now + 1)
  | .skip => .skip

omit [DecidableEq α] in
theorem counts_empty : Counts (.empty α) (.empty α ℤ) := ⟨fun _ => rfl, rfl, .refl _⟩

omit [DecidableEq α] in
theorem Counts.due_le_iff (h : Counts a s) (hwf : a.WF) {p : α} {k : ℤ} :
    s.due p = some k ∧ k ≤ a.now + 1 ↔ a.due p = some (a.now + 1) ∧ k = a.now + 1 := by
  rw [h.due, Option.map_eq_some_iff]
  constructor
  · rintro ⟨⟨d, hd, rfl⟩, hle⟩
    have hlater := hwf.later p d hd
    obtain rfl : d = a.now + 1 := by omega
    exact ⟨hd, Int.natCast_succ _⟩
  · rintro ⟨hd, rfl⟩
    exact ⟨⟨_, hd, Int.natCast_succ _⟩, le_refl _⟩

/-- **An agenda and alarms that are used in the same way** fire the same things in the same
ticks. -/
theorem Counts.step (h : Counts a s) (hwf : a.WF) (hs : Agenda.Step a ev a')
    (hs' : Step s (eventAt a.now ev) s') : Counts a' s' := by
  cases hs with
  | @arm p d hnew hd =>
    cases hs'
    refine ⟨fun q => ?_, by rw [h.armed], h.fired⟩
    rcases eq_or_ne q p with rfl | hne
    · simp
    · simp [Function.update_of_ne hne, h.due]
  | @cancel p hp =>
    cases hs'
    refine ⟨fun q => ?_, h.armed, h.fired⟩
    rcases eq_or_ne q p with rfl | hne
    · simp
    · simp [Function.update_of_ne hne, h.due]
  | @tick ps hnodup hps =>
    cases hs' with
    | @tick _ qs hnodup' hsorted hqs =>
      have hmem : ∀ q k, (q, k) ∈ qs ↔ q ∈ ps ∧ k = a.now + 1 := fun q k => by
        rw [hqs, h.due_le_iff hwf, hps]
      refine ⟨fun q => ?_, h.armed, ?_⟩
      · dsimp only
        split_ifs with hq
        · exact after_eq_none.2 fun k hk => by
            rw [h.due, hq] at hk
            exact (Option.some.inj hk).ge
        · rw [← h.due]
          cases hk : s.due q with
          | none => exact after_eq_none.2 fun k hk' => absurd (hk.symm.trans hk') (by simp)
          | some k =>
            refine after_eq_some.2 ⟨hk, not_le.1 fun hle => hq ?_⟩
            exact ((h.due_le_iff hwf).1 ⟨hk, hle⟩).1
      · rw [List.map_append, List.map_map]
        refine h.fired.append ((List.perm_ext_iff_of_nodup hnodup'.of_map ?_).2 ?_)
        · exact hnodup.map fun p q hpq => congrArg Prod.fst hpq
        · rintro ⟨q, k⟩
          rw [hmem]
          simp [eq_comm]
  | skip =>
    cases hs'
    exact h

end Alarms

end LinuxServer
