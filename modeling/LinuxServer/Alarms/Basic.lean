import LinuxServer.LTS.Basic
import Mathlib.Data.List.Nodup
import Mathlib.Data.List.Sort
import Mathlib.Logic.Function.Basic
import Mathlib.Order.Lattice

/-!
# Alarms

What a queue of timers is for, whatever it is made of: things `α` are armed for a deadline `κ`, may
be put off or cancelled, and a tick at the time `t` fires those whose deadline is not later than
`t`, the earliest first.  Among equal deadlines a tick may choose any order.

* `Alarms α κ`: the deadline of each thing, and a record of what was armed and what fired.
* `alarmsLTS`: one event after the other.
* `Agrees s s'`: the same things are due, and the same ones fired, but for the order of ties.

`fired_iff`: what is armed fires at the first tick that is not before its deadline, and once.
`Agrees.step`: two systems that are used in the same way agree.
`fired_sorted`: what fires in a run is in the order of the deadlines, unless something is armed too
late.
-/

namespace LinuxServer

/-- The deadlines of the things that are armed.  Recorded are the things armed so far and, with
their deadlines, those that fired, in order. -/
structure Alarms (α κ : Type*) where
  due : α → Option κ
  armed : List α
  fired : List (α × κ)

namespace Alarms

variable {α κ : Type*} [DecidableEq α] [LinearOrder κ]

/-- What happens to alarms. -/
inductive Event (α κ : Type*) where
  | arm (p : α) (k : κ)
  /-- The deadline of a thing that is armed is set anew. -/
  | rearm (p : α) (k : κ)
  | cancel (p : α)
  | tick (t : κ)
  /-- Something that does not concern them. -/
  | skip
  deriving DecidableEq, Repr

/-- Nothing is armed. -/
def empty (α κ : Type*) : Alarms α κ := ⟨fun _ => none, [], []⟩

/-- What is due after a tick at `t`. -/
def after (due : α → Option κ) (t : κ) (p : α) : Option κ := (due p).filter fun k => t < k

/-- A thing is armed once; a tick fires, each once and the earliest first, what is due. -/
inductive Step : Alarms α κ → Event α κ → Alarms α κ → Prop where
  | arm {s : Alarms α κ} {p : α} {k : κ} : p ∉ s.armed →
      Step s (.arm p k)
        { s with due := Function.update s.due p (some k), armed := s.armed ++ [p] }
  | rearm {s : Alarms α κ} {p : α} {k : κ} : s.due p ≠ none →
      Step s (.rearm p k) { s with due := Function.update s.due p (some k) }
  | cancel {s : Alarms α κ} {p : α} : s.due p ≠ none →
      Step s (.cancel p) { s with due := Function.update s.due p none }
  | tick {s : Alarms α κ} {t : κ} {ps : List (α × κ)} : (ps.map Prod.fst).Nodup →
      (ps.map Prod.snd).Pairwise (· ≤ ·) →
      (∀ p k, (p, k) ∈ ps ↔ s.due p = some k ∧ k ≤ t) →
      Step s (.tick t) { s with due := after s.due t, fired := s.fired ++ ps }
  | skip {s : Alarms α κ} : Step s .skip s

/-- The events of alarms. -/
def alarmsLTS (α κ : Type*) [DecidableEq α] [LinearOrder κ] : LTS (Alarms α κ) (Event α κ) where
  step := Step

variable {s s' u u' : Alarms α κ} {ev : Event α κ} {evs : List (Event α κ)} {p : α} {k t : κ}

omit [DecidableEq α] in
theorem after_eq_some {due : α → Option κ} :
    after due t p = some k ↔ due p = some k ∧ t < k := by
  simp [after, Option.filter_eq_some_iff]

omit [DecidableEq α] in
theorem after_eq_none {due : α → Option κ} :
    after due t p = none ↔ ∀ k, due p = some k → k ≤ t := by
  simp [after, Option.filter_eq_none_iff]

/-! ### What fires -/

/-- What is due was armed and has not fired; what fired was armed, and fired once. -/
structure WF (s : Alarms α κ) : Prop where
  held : ∀ p, s.due p ≠ none → p ∈ s.armed ∧ p ∉ s.fired.map Prod.fst
  armed : ∀ p ∈ s.fired.map Prod.fst, p ∈ s.armed
  nodup : (s.fired.map Prod.fst).Nodup

omit [DecidableEq α] [LinearOrder κ] in
theorem wf_empty : (empty α κ).WF :=
  ⟨fun _ h => absurd rfl h, fun _ h => absurd h List.not_mem_nil, List.nodup_nil⟩

theorem WF.step (h : s.WF) (hs : Step s ev s') : s'.WF := by
  cases hs with
  | @arm p k hnew =>
    refine ⟨fun q hq => ?_, fun q hq => List.mem_append_left _ (h.armed q hq), h.nodup⟩
    rcases eq_or_ne q p with rfl | hne
    · exact ⟨by simp, fun hf => hnew (h.armed q hf)⟩
    · dsimp only at hq
      rw [Function.update_of_ne hne] at hq
      exact ⟨List.mem_append_left _ (h.held q hq).1, (h.held q hq).2⟩
  | @rearm p k hp =>
    refine ⟨fun q hq => ?_, h.armed, h.nodup⟩
    rcases eq_or_ne q p with rfl | hne
    · exact h.held q hp
    · dsimp only at hq
      rw [Function.update_of_ne hne] at hq
      exact h.held q hq
  | @cancel p hp =>
    refine ⟨fun q hq => h.held q fun hnone => hq ?_, h.armed, h.nodup⟩
    rcases eq_or_ne q p with rfl | hne
    · exact Function.update_self ..
    · exact (Function.update_of_ne hne _ _).trans hnone
  | @tick t ps hnodup hsorted hps =>
    have hdue : ∀ q ∈ ps.map Prod.fst, ∃ k, s.due q = some k ∧ k ≤ t := by
      intro q hq
      obtain ⟨⟨q, k⟩, hmem, rfl⟩ := List.mem_map.1 hq
      exact ⟨k, (hps q k).1 hmem⟩
    have hheld : ∀ q ∈ ps.map Prod.fst, s.due q ≠ none := by
      intro q hq
      obtain ⟨k, hk, -⟩ := hdue q hq
      simp [hk]
    refine ⟨fun q hq => ?_, fun q hq => ?_, ?_⟩
    · obtain ⟨k, hk⟩ := Option.ne_none_iff_exists'.1 hq
      obtain ⟨hk, hlt⟩ := after_eq_some.1 hk
      have hq : s.due q ≠ none := by simp [hk]
      refine ⟨(h.held q hq).1, fun hmem => ?_⟩
      rw [List.map_append, List.mem_append] at hmem
      rcases hmem with hmem | hmem
      · exact (h.held q hq).2 hmem
      · obtain ⟨k', hk', hle⟩ := hdue q hmem
        obtain rfl := Option.some.inj (hk.symm.trans hk')
        exact hlt.not_ge hle
    · rw [List.map_append, List.mem_append] at hq
      rcases hq with hq | hq
      · exact h.armed q hq
      · exact (h.held q (hheld q hq)).1
    · rw [List.map_append, List.nodup_append']
      exact ⟨h.nodup, hnodup, fun q hq hmem => (h.held q (hheld q hmem)).2 hq⟩
  | skip => exact h

theorem WF.run (h : s.WF) (hrun : (alarmsLTS α κ).Run s evs s') : s'.WF :=
  hrun.invariant h fun _ _ _ hu hs => hu.step hs

theorem Step.silent (hs : Step s ev s') (harmed : p ∈ s.armed) (hdue : s.due p = none) :
    p ∈ s'.armed ∧ s'.due p = none ∧ ∀ k, (p, k) ∈ s'.fired ↔ (p, k) ∈ s.fired := by
  cases hs with
  | @arm q k hnew =>
    have hne : p ≠ q := fun h => hnew (h ▸ harmed)
    exact ⟨List.mem_append_left _ harmed, (Function.update_of_ne hne _ _).trans hdue,
      fun _ => Iff.rfl⟩
  | @rearm q k hq =>
    have hne : p ≠ q := fun h => hq (h ▸ hdue)
    exact ⟨harmed, (Function.update_of_ne hne _ _).trans hdue, fun _ => Iff.rfl⟩
  | @cancel q hq =>
    have hne : p ≠ q := fun h => hq (h ▸ hdue)
    exact ⟨harmed, (Function.update_of_ne hne _ _).trans hdue, fun _ => Iff.rfl⟩
  | @tick t ps hnodup hsorted hps =>
    refine ⟨harmed, after_eq_none.2 fun k hk => ?_, fun k => ?_⟩
    · cases hdue.symm.trans hk
    · rw [List.mem_append, hps, hdue]
      simp
  | skip => exact ⟨harmed, hdue, fun _ => Iff.rfl⟩

/-- What is due stays due until a tick is not before its deadline. -/
theorem Step.due (hs : Step s ev s') (hdue : s.due p = some k) (hcancel : ev ≠ .cancel p)
    (hrearm : ∀ k', ev ≠ .rearm p k') (hwf : s.WF) :
    ((∀ t, ev = .tick t → t < k) ∧ s'.due p = some k) ∨
      (∃ t, ev = .tick t ∧ k ≤ t) ∧ s'.due p = none ∧ (p, k) ∈ s'.fired := by
  have hp : s.due p ≠ none := by simp [hdue]
  cases hs with
  | @arm q k' hnew =>
    have hne : p ≠ q := fun h => hnew (h ▸ (hwf.held p hp).1)
    exact .inl ⟨fun _ h => (by cases h), (Function.update_of_ne hne _ _).trans hdue⟩
  | @rearm q k' hq =>
    have hne : p ≠ q := fun h => hrearm k' (h ▸ rfl)
    exact .inl ⟨fun _ h => (by cases h), (Function.update_of_ne hne _ _).trans hdue⟩
  | @cancel q hq =>
    have hne : p ≠ q := fun h => hcancel (h ▸ rfl)
    exact .inl ⟨fun _ h => (by cases h), (Function.update_of_ne hne _ _).trans hdue⟩
  | @tick t ps hnodup hsorted hps =>
    rcases lt_or_ge t k with hlt | hle
    · refine .inl ⟨?_, after_eq_some.2 ⟨hdue, hlt⟩⟩
      rintro _ ⟨⟩
      exact hlt
    · refine .inr ⟨⟨t, rfl, hle⟩, after_eq_none.2 fun k' hk' => ?_, ?_⟩
      · obtain rfl := Option.some.inj (hdue.symm.trans hk')
        exact hle
      · exact List.mem_append_right _ ((hps p k).2 ⟨hdue, hle⟩)
  | skip => exact .inl ⟨fun _ h => (by cases h), hdue⟩

/-- **What is armed fires in time, and once.**  Unless it is cancelled or put off, a thing with the
deadline `k` has fired iff a tick was not before `k`. -/
theorem fired_iff (h : s.WF) (hdue : s.due p = some k) (hrun : (alarmsLTS α κ).Run s evs s')
    (hcancel : .cancel p ∉ evs) (hrearm : ∀ k', .rearm p k' ∉ evs) :
    (p ∈ s'.fired.map Prod.fst ↔ ∃ t, .tick t ∈ evs ∧ k ≤ t) ∧ (s'.fired.map Prod.fst).Nodup := by
  refine ⟨?_, (h.run hrun).nodup⟩
  -- it is still due as long as all ticks were earlier, and has fired since
  have hstate : (s'.due p = some k ∧ ∀ t, .tick t ∈ evs → t < k) ∨
      s'.due p = none ∧ p ∈ s'.armed ∧ (p, k) ∈ s'.fired ∧ ∃ t, .tick t ∈ evs ∧ k ≤ t := by
    induction hrun with
    | nil => exact .inl ⟨hdue, fun t ht => absurd ht List.not_mem_nil⟩
    | @snoc evs ev u w hrun hs ih =>
      have hwf := h.run hrun
      rcases ih (fun hmem => hcancel (List.mem_append_left _ hmem))
        (fun k' hmem => hrearm k' (List.mem_append_left _ hmem)) with
        ⟨hu, hearly⟩ | ⟨hu, harmed, hfired, t, ht, hle⟩
      · have harmed := (hwf.held p (by simp [hu])).1
        rcases Step.due hs hu (fun h => hcancel (by simp [h])) (fun k' h => hrearm k' (by simp [h]))
          hwf with ⟨htick, hw⟩ | ⟨⟨t, rfl, hle⟩, hw, hfired⟩
        · refine .inl ⟨hw, fun t ht => ?_⟩
          rcases List.mem_append.1 ht with ht | ht
          · exact hearly t ht
          · exact htick t (List.mem_singleton.1 ht).symm
        · have hwf' := hwf.step hs
          refine .inr ⟨hw, hwf'.armed p (List.mem_map.2 ⟨_, hfired, rfl⟩), hfired, t, by simp, hle⟩
      · obtain ⟨harmed, hw, hsame⟩ := Step.silent hs harmed hu
        exact .inr ⟨hw, harmed, (hsame k).2 hfired, t, List.mem_append_left _ ht, hle⟩
  rcases hstate with ⟨hdue', hearly⟩ | ⟨-, -, hfired, hticked⟩
  · refine iff_of_false ((h.run hrun).held p (by simp [hdue'])).2 ?_
    rintro ⟨t, ht, hle⟩
    exact (hearly t ht).not_ge hle
  · exact iff_of_true (List.mem_map.2 ⟨_, hfired, rfl⟩) hticked

theorem not_fired_of_run (harmed : p ∈ s.armed) (hdue : s.due p = none)
    (hnot : p ∉ s.fired.map Prod.fst) (hrun : (alarmsLTS α κ).Run s evs s') :
    p ∉ s'.fired.map Prod.fst := by
  have hinv : p ∈ s'.armed ∧ s'.due p = none ∧ p ∉ s'.fired.map Prod.fst := by
    refine hrun.invariant (I := fun u => p ∈ u.armed ∧ u.due p = none ∧ p ∉ u.fired.map Prod.fst)
      ⟨harmed, hdue, hnot⟩ ?_
    rintro v ev w ⟨harmed, hv, hnot⟩ hs
    obtain ⟨harmed, hw, hsame⟩ := Step.silent hs harmed hv
    refine ⟨harmed, hw, fun hmem => hnot ?_⟩
    obtain ⟨⟨q, k⟩, hfired, rfl⟩ := List.mem_map.1 hmem
    exact List.mem_map.2 ⟨_, (hsame k).1 hfired, rfl⟩
  exact hinv.2.2

theorem not_fired_of_cancelled (h : s.WF) (hs : Step s (.cancel p) u)
    (hrun : (alarmsLTS α κ).Run u evs s') : p ∉ s'.fired.map Prod.fst := by
  cases hs with
  | cancel hdue =>
    have hheld := h.held p hdue
    refine not_fired_of_run ?_ ?_ ?_ hrun
    · exact hheld.1
    · exact Function.update_self ..
    · exact hheld.2

/-! ### Two systems that are used in the same way -/

/-- The same things are due, and the same ones fired with the same deadlines, but for the order of
ties. -/
structure Agrees (s s' : Alarms α κ) : Prop where
  due : s.due = s'.due
  armed : s.armed = s'.armed
  fired : s.fired.Perm s'.fired
  deadlines : s.fired.map Prod.snd = s'.fired.map Prod.snd

omit [DecidableEq α] [LinearOrder κ] in
theorem Agrees.refl (s : Alarms α κ) : Agrees s s := ⟨rfl, rfl, .refl _, rfl⟩

theorem Agrees.step (h : Agrees s s') (hs : Step s ev u) (hs' : Step s' ev u') : Agrees u u' := by
  cases hs with
  | arm =>
    cases hs'
    exact ⟨by rw [h.due], by rw [h.armed], h.fired, h.deadlines⟩
  | rearm =>
    cases hs'
    exact ⟨by rw [h.due], h.armed, h.fired, h.deadlines⟩
  | cancel =>
    cases hs'
    exact ⟨by rw [h.due], h.armed, h.fired, h.deadlines⟩
  | @tick t ps hnodup hsorted hps =>
    cases hs' with
    | @tick _ qs hnodup' hsorted' hqs =>
      have hperm : ps.Perm qs := by
        refine (List.perm_ext_iff_of_nodup hnodup.of_map hnodup'.of_map).2 fun e => ?_
        obtain ⟨p, k⟩ := e
        rw [hps, hqs, h.due]
      have heq : ps.map Prod.snd = qs.map Prod.snd :=
        (hperm.map Prod.snd).eq_of_pairwise' hsorted hsorted'
      refine ⟨by rw [h.due], h.armed, h.fired.append hperm, ?_⟩
      rw [List.map_append, List.map_append, h.deadlines, heq]
  | skip =>
    cases hs'
    exact h

/-! ### The order of what fires -/

/-- Nothing is armed, or put off, for a time that a tick has had before. -/
def Timely (evs : List (Event α κ)) : Prop :=
  ∀ pre ev, pre ++ [ev] <+: evs → ∀ p k, ev = .arm p k ∨ ev = .rearm p k →
    ∀ t, .tick t ∈ pre → t < k

omit [DecidableEq α] in
theorem Timely.of_prefix {pre : List (Event α κ)} (h : Timely evs) (hpre : pre <+: evs) :
    Timely pre := fun pre' ev hpre' => h pre' ev (hpre'.trans hpre)

/-- After the events `evs`: what has fired is sorted and was due at one of the ticks, and what is
due is due after all of them. -/
structure Elapsed (evs : List (Event α κ)) (s : Alarms α κ) : Prop where
  sorted : (s.fired.map Prod.snd).Pairwise (· ≤ ·)
  past : ∀ k ∈ s.fired.map Prod.snd, ∃ t, .tick t ∈ evs ∧ k ≤ t
  later : ∀ p k, s.due p = some k → ∀ t, .tick t ∈ evs → t < k

omit [DecidableEq α] in
theorem elapsed_empty : Elapsed [] (empty α κ) :=
  ⟨.nil, fun k hk => absurd hk List.not_mem_nil, fun p k hk => by cases hk⟩

omit [DecidableEq α] in
theorem Elapsed.past_append (h : Elapsed evs s) (ev : Event α κ) :
    ∀ k ∈ s.fired.map Prod.snd, ∃ t, .tick t ∈ evs ++ [ev] ∧ k ≤ t := by
  intro k hk
  obtain ⟨t, ht, hle⟩ := h.past k hk
  exact ⟨t, List.mem_append_left _ ht, hle⟩

theorem Elapsed.later_set (h : Elapsed evs s) (hev : ev = .arm p k ∨ ev = .rearm p k)
    (hnew : ∀ t, .tick t ∈ evs → t < k) : ∀ q j, Function.update s.due p (some k) q = some j →
      ∀ t, .tick t ∈ evs ++ [ev] → t < j := by
  intro q j hq t ht
  have ht : .tick t ∈ evs := by
    rcases List.mem_append.1 ht with ht | ht
    · exact ht
    · rcases hev with rfl | rfl <;> cases List.mem_singleton.1 ht
  rcases eq_or_ne q p with rfl | hne
  · rw [Function.update_self] at hq
    obtain rfl := Option.some.inj hq
    exact hnew t ht
  · rw [Function.update_of_ne hne] at hq
    exact h.later q j hq t ht

omit [DecidableEq α] in
theorem Elapsed.tick {ps : List (α × κ)} (h : Elapsed evs s)
    (hps : (ps.map Prod.snd).Pairwise (· ≤ ·))
    (hmem : ∀ p k, (p, k) ∈ ps ↔ s.due p = some k ∧ k ≤ t) :
    Elapsed (evs ++ [.tick t]) { s with due := after s.due t, fired := s.fired ++ ps } := by
  have hdue : ∀ k ∈ ps.map Prod.snd, ∃ p, s.due p = some k ∧ k ≤ t := by
    intro k hk
    obtain ⟨⟨p, k⟩, hpk, rfl⟩ := List.mem_map.1 hk
    exact ⟨p, (hmem p k).1 hpk⟩
  refine ⟨?_, fun k hk => ?_, fun q j hq t' ht' => ?_⟩
  · rw [List.map_append, List.pairwise_append]
    refine ⟨h.sorted, hps, fun k hk j hj => ?_⟩
    obtain ⟨t', ht', hle⟩ := h.past k hk
    obtain ⟨p, hp, -⟩ := hdue j hj
    exact hle.trans (h.later p j hp t' ht').le
  · rw [List.map_append, List.mem_append] at hk
    rcases hk with hk | hk
    · exact h.past_append _ k hk
    · obtain ⟨-, -, hle⟩ := hdue k hk
      exact ⟨t, by simp, hle⟩
  · obtain ⟨hq, hlt⟩ := after_eq_some.1 hq
    rcases List.mem_append.1 ht' with ht' | ht'
    · exact h.later q j hq t' ht'
    · cases List.mem_singleton.1 ht'
      exact hlt

theorem Elapsed.step (h : Elapsed evs s) (hs : Step s ev s')
    (hnew : ∀ p k, ev = .arm p k ∨ ev = .rearm p k → ∀ t, .tick t ∈ evs → t < k) :
    Elapsed (evs ++ [ev]) s' := by
  have hpast := h.past_append ev
  cases hs with
  | @arm p k => exact ⟨h.sorted, hpast, h.later_set (.inl rfl) (hnew p k (.inl rfl))⟩
  | @rearm p k => exact ⟨h.sorted, hpast, h.later_set (.inr rfl) (hnew p k (.inr rfl))⟩
  | @cancel p =>
    refine ⟨h.sorted, hpast, fun q j hq t ht => ?_⟩
    have ht : .tick t ∈ evs := by simpa using ht
    rcases eq_or_ne q p with rfl | hne
    · dsimp only at hq
      rw [Function.update_self] at hq
      cases hq
    · dsimp only at hq
      rw [Function.update_of_ne hne] at hq
      exact h.later q j hq t ht
  | tick hnodup hsorted hmem => exact h.tick hsorted hmem
  | skip =>
    refine ⟨h.sorted, hpast, fun q j hq t ht => h.later q j hq t ?_⟩
    simpa using ht

/-- **What fires in a run is in the order of the deadlines**, when nothing is armed for a time that
is past. -/
theorem fired_sorted (hrun : (alarmsLTS α κ).Run (empty α κ) evs s) (htimely : Timely evs) :
    (s.fired.map Prod.snd).Pairwise (· ≤ ·) := by
  have helapsed : Elapsed evs s := by
    induction hrun with
    | nil => exact elapsed_empty
    | snoc _ hs ih =>
      exact (ih (htimely.of_prefix (List.prefix_append _ _))).step hs
        (htimely _ _ (List.prefix_refl _))
  exact helapsed.sorted

end Alarms

end LinuxServer
