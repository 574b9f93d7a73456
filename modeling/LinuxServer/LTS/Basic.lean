import Mathlib.Algebra.Ring.Nat
import Mathlib.Data.List.Forall2
import Mathlib.Data.List.Infix
import Mathlib.Order.Basic

/-!
# Labelled transition systems and their runs

* `LTS σ ℓ`: a relation between states `σ` whose steps carry labels `ℓ`.
* `LTS.Run s ops w`: the labels `ops` in turn lead from `s` to `w`.
* `LTS.Reachable s w`: some run leads from `s` to `w`.
* `LTS.guard C`: only the steps that start in a state and with a label that meet `C`.
* `LTS.ofExec exec`: the system of a function that makes one call or fails; `LTS.play` runs it.
* `LTS.ofNext next`: the system of a function that makes one step where it is possible.

Invariants are proved by `Run.invariant`, refinements by `Run.simulate`; `Run.forall_prefix_iff`
is the rule for a property that lasts exactly as long as the steps meet a condition.
`Run.length_le` and `comes_to_rest` are the rules for systems whose steps use something up.
-/

namespace LinuxServer

/-- A system that takes labelled steps. -/
structure LTS (σ ℓ : Type*) where
  step : σ → ℓ → σ → Prop

namespace LTS

variable {σ ℓ : Type*} {A : LTS σ ℓ} {s u w : σ} {op : ℓ} {ops ops' : List ℓ}

/-- The labels of a run, the last step last. -/
inductive Run (A : LTS σ ℓ) (s : σ) : List ℓ → σ → Prop where
  | nil : Run A s [] s
  | snoc {ops : List ℓ} {op : ℓ} {u w : σ} : Run A s ops u → A.step u op w →
      Run A s (ops ++ [op]) w

/-- Some run leads from `s` to `w`. -/
def Reachable (A : LTS σ ℓ) (s w : σ) : Prop := ∃ ops, A.Run s ops w

/-- In every state a label leads to one state at most. -/
def Deterministic (A : LTS σ ℓ) : Prop :=
  ∀ u op w w', A.step u op w → A.step u op w' → w = w'

/-- The steps of `A` whose first state and label meet `C`. -/
def guard (A : LTS σ ℓ) (C : σ → ℓ → Prop) : LTS σ ℓ where
  step u op w := A.step u op w ∧ C u op

/-- The calls that do not fail. -/
def ofExec {ε : Type*} (exec : σ → ℓ → Except ε σ) : LTS σ ℓ where
  step u op w := exec u op = .ok w

theorem ofExec_deterministic {ε : Type*} (exec : σ → ℓ → Except ε σ) :
    (ofExec exec).Deterministic := by
  intro u op w w' h h'
  exact Except.ok.inj ((show exec u op = .ok w from h).symm.trans h')

theorem Deterministic.guard (hdet : A.Deterministic) (C : σ → ℓ → Prop) :
    (A.guard C).Deterministic := fun u op w w' h h' => hdet u op w w' h.1 h'.1

theorem Run.append (h : A.Run s ops u) (h' : A.Run u ops' w) : A.Run s (ops ++ ops') w := by
  induction h' with
  | nil => rwa [List.append_nil]
  | snoc _ hstep ih =>
    rw [← List.append_assoc]
    exact ih.snoc hstep

theorem Run.single (h : A.step s op w) : A.Run s [op] w := Run.nil.snoc h

theorem run_nil_iff : A.Run s [] w ↔ w = s := by
  constructor
  · intro h
    generalize hops : ([] : List ℓ) = ops at h
    cases h with
    | nil => rfl
    | snoc => simp at hops
  · rintro rfl
    exact .nil

theorem run_snoc_iff : A.Run s (ops ++ [op]) w ↔ ∃ u, A.Run s ops u ∧ A.step u op w := by
  constructor
  · intro h
    generalize hl : ops ++ [op] = l at h
    cases h with
    | nil => simp at hl
    | snoc hrun hstep =>
      obtain ⟨rfl, rfl⟩ := List.append_singleton_inj.1 hl
      exact ⟨_, hrun, hstep⟩
  · rintro ⟨u, hrun, hstep⟩
    exact hrun.snoc hstep

theorem run_singleton_iff : A.Run s [op] w ↔ A.step s op w := by
  refine ⟨fun h => ?_, Run.single⟩
  rw [← List.nil_append [op], run_snoc_iff] at h
  obtain ⟨u, hu, hstep⟩ := h
  rwa [run_nil_iff.1 hu] at hstep

theorem run_append_iff : A.Run s (ops ++ ops') w ↔ ∃ u, A.Run s ops u ∧ A.Run u ops' w := by
  refine ⟨fun h => ?_, fun ⟨u, h, h'⟩ => h.append h'⟩
  induction ops' using List.reverseRecOn generalizing w with
  | nil => exact ⟨w, by rwa [List.append_nil] at h, .nil⟩
  | append_singleton ops' op ih =>
    rw [← List.append_assoc, run_snoc_iff] at h
    obtain ⟨v, hrun, hstep⟩ := h
    obtain ⟨u, hu, hv⟩ := ih hrun
    exact ⟨u, hu, hv.snoc hstep⟩

theorem Run.of_prefix {pre : List ℓ} (h : A.Run s ops w) (hpre : pre <+: ops) :
    ∃ u, A.Run s pre u := by
  obtain ⟨post, rfl⟩ := hpre
  obtain ⟨u, hu, -⟩ := run_append_iff.1 h
  exact ⟨u, hu⟩

/-- What holds first and is kept by every step holds of every state of a run. -/
theorem Run.invariant {I : σ → Prop} (h : A.Run s ops w) (h₀ : I s)
    (hstep : ∀ u op w, I u → A.step u op w → I w) : I w := by
  induction h with
  | nil => exact h₀
  | snoc _ hs ih => exact hstep _ _ _ ih hs

theorem Reachable.invariant {I : σ → Prop} (h : A.Reachable s w) (h₀ : I s)
    (hstep : ∀ u op w, I u → A.step u op w → I w) : I w := by
  obtain ⟨ops, hrun⟩ := h
  exact hrun.invariant h₀ hstep

theorem Reachable.refl (s : σ) : A.Reachable s s := ⟨[], .nil⟩

theorem Reachable.tail (h : A.Reachable s u) (hstep : A.step u op w) : A.Reachable s w := by
  obtain ⟨ops, hrun⟩ := h
  exact ⟨_, hrun.snoc hstep⟩

theorem Deterministic.run_unique (hdet : A.Deterministic) {w' : σ} (h : A.Run s ops w)
    (h' : A.Run s ops w') : w = w' := by
  induction h generalizing w' with
  | nil => exact (run_nil_iff.1 h').symm
  | snoc _ hs ih =>
    obtain ⟨u', hrun, hs'⟩ := run_snoc_iff.1 h'
    obtain rfl := ih hrun
    exact hdet _ _ _ _ hs hs'

/-- A system that can do the steps can do the run. -/
theorem Run.mono {B : LTS σ ℓ} (h : A.Run s ops w)
    (hstep : ∀ u op w, op ∈ ops → A.step u op w → B.step u op w) : B.Run s ops w := by
  induction h with
  | nil => exact .nil
  | snoc _ hs ih =>
    exact (ih fun u op w hop => hstep u op w (List.mem_append_left _ hop)).snoc
      (hstep _ _ _ (by simp) hs)

/-- In a deterministic system the steps of a guarded run meet the guard on the way there. -/
theorem Run.guard_of_prefix {C : σ → ℓ → Prop} {pre : List ℓ} (hdet : A.Deterministic)
    (h : (A.guard C).Run s ops w) (hpre : pre ++ [op] <+: ops) (hu : A.Run s pre u) : C u op := by
  obtain ⟨v, hv⟩ := h.of_prefix hpre
  obtain ⟨u', hu', hs⟩ := run_snoc_iff.1 hv
  obtain rfl := hdet.run_unique hu (hu'.mono fun _ _ _ _ hs => hs.1)
  exact hs.2

/-- The states of a run have its invariants. -/
theorem Run.guard_invariant {I : σ → Prop} (h : A.Run s ops w) (h₀ : I s)
    (hstep : ∀ u op w, I u → A.step u op w → I w) : (A.guard fun u _ => I u).Run s ops w := by
  induction h with
  | nil => exact .nil
  | snoc hrun hs ih => exact ih.snoc ⟨hs, hrun.invariant h₀ hstep⟩

/-- The rule for refinements: when each step is matched by a step of `B`, with a label that `Q`
allows, so is each run. -/
theorem Run.simulate {τ κ : Type*} {B : LTS τ κ} {R : σ → τ → Prop} {Q : ℓ → κ → Prop} {t : τ}
    (h : A.Run s ops w) (h₀ : R s t)
    (hstep : ∀ u op w v, R u v → A.step u op w → ∃ ev v', B.step v ev v' ∧ Q op ev ∧ R w v') :
    ∃ evs v, B.Run t evs v ∧ (∀ ev ∈ evs, ∃ op ∈ ops, Q op ev) ∧ R w v := by
  induction h with
  | nil => exact ⟨[], t, .nil, fun _ hev => absurd hev List.not_mem_nil, h₀⟩
  | @snoc ops op _ _ _ hs ih =>
    obtain ⟨evs, v, hrun, hQ, hR⟩ := ih
    obtain ⟨ev, v', hs', hev, hR'⟩ := hstep _ _ _ v hR hs
    refine ⟨_, v', hrun.snoc hs', fun ev' hmem => ?_, hR'⟩
    rcases List.mem_append.1 hmem with hmem | hmem
    · obtain ⟨op', hop, hop'⟩ := hQ ev' hmem
      exact ⟨op', List.mem_append_left _ hop, hop'⟩
    · obtain rfl := List.mem_singleton.1 hmem
      exact ⟨op, List.mem_append_right _ (List.mem_singleton_self op), hev⟩

/-- The rule for refinements step by step: the labels of the two runs match one by one. -/
theorem Run.simulate_each {τ κ : Type*} {B : LTS τ κ} {R : σ → τ → Prop} {Q : ℓ → κ → Prop} {t : τ}
    (h : A.Run s ops w) (h₀ : R s t)
    (hstep : ∀ u op w v, R u v → A.step u op w → ∃ ev v', B.step v ev v' ∧ Q op ev ∧ R w v') :
    ∃ evs v, B.Run t evs v ∧ List.Forall₂ Q ops evs ∧ R w v := by
  induction h with
  | nil => exact ⟨[], t, .nil, .nil, h₀⟩
  | snoc _ hs ih =>
    obtain ⟨evs, v, hrun, hQ, hR⟩ := ih
    obtain ⟨ev, v', hs', hev, hR'⟩ := hstep _ _ _ v hR hs
    exact ⟨_, v', hrun.snoc hs', List.rel_append hQ (.cons hev .nil), hR'⟩

/-- What of a run is matched by the labels of the other one. -/
theorem exists_match {κ : Type*} {Q : ℓ → κ → Prop} {evs pre : List κ} {ev : κ}
    (h : List.Forall₂ Q ops evs) (hpre : pre ++ [ev] <+: evs) :
    ∃ pre' op, pre' ++ [op] <+: ops ∧ List.Forall₂ Q pre' pre ∧ Q op ev := by
  obtain ⟨post, rfl⟩ := hpre
  have hfirst := List.forall₂_take_append _ _ _ h
  rw [List.append_assoc] at h
  have hpre := List.forall₂_take_append _ _ _ h
  have hrest := List.forall₂_drop_append _ _ _ h
  obtain ⟨op, ops', hQ, -, heq⟩ := List.forall₂_cons_right_iff.1 hrest
  refine ⟨_, op, ⟨ops', ?_⟩, hpre, hQ⟩
  rw [List.append_assoc, List.singleton_append, ← heq, List.take_append_drop]

theorem exists_match_of_mem {κ : Type*} {Q : ℓ → κ → Prop} {evs : List κ} {ev : κ}
    (h : List.Forall₂ Q ops evs) (hev : ev ∈ evs) : ∃ op ∈ ops, Q op ev := by
  obtain ⟨pre, post, rfl⟩ := List.append_of_mem hev
  rw [List.append_cons] at h
  obtain ⟨pre', op, hpre, -, hQ⟩ := exists_match h (List.prefix_append _ post)
  exact ⟨op, hpre.subset (by simp), hQ⟩

theorem exists_match_of_mem_left {κ : Type*} {Q : ℓ → κ → Prop} {evs : List κ}
    (h : List.Forall₂ Q ops evs) (hop : op ∈ ops) : ∃ ev ∈ evs, Q op ev :=
  exists_match_of_mem (Q := fun ev op => Q op ev) h.flip hop

/-- A label that is matched by one label only, and the other way round. -/
theorem mem_iff_of_match {κ : Type*} {Q : ℓ → κ → Prop} {evs : List κ} {ev : κ}
    (h : List.Forall₂ Q ops evs) (hQ : ∀ op' ev', Q op' ev' → (op' = op ↔ ev' = ev)) :
    op ∈ ops ↔ ev ∈ evs := by
  constructor
  · intro hop
    obtain ⟨ev', hev, hm⟩ := exists_match_of_mem_left h hop
    exact (hQ op ev' hm).1 rfl ▸ hev
  · intro hev
    obtain ⟨op', hop, hm⟩ := exists_match_of_mem h hev
    exact (hQ op' ev hm).2 rfl ▸ hop

theorem Run.cons (hstep : A.step s op u) (h : A.Run u ops w) : A.Run s (op :: ops) w :=
  (Run.single hstep).append h

/-- A run is not longer than the rank it starts with and what its labels cost. -/
theorem Run.length_le (rank : σ → ℕ) (cost : ℓ → ℕ) (h : A.Run s ops w)
    (hstep : ∀ u op v, A.step u op v → rank v + 1 ≤ rank u + cost op) :
    rank w + ops.length ≤ rank s + (ops.map cost).sum := by
  induction h with
  | nil => simp
  | @snoc ops op u w _ hs ih =>
    have hlast := hstep _ _ _ hs
    rw [List.length_append, List.length_singleton, List.map_append, List.sum_append,
      List.map_singleton, List.sum_singleton]
    omega

theorem Run.length_le_rank (rank : σ → ℕ) (h : A.Run s ops w)
    (hstep : ∀ u op v, A.step u op v → rank v < rank u) : rank w + ops.length ≤ rank s := by
  induction h with
  | nil => exact Nat.le_refl _
  | snoc _ hs ih =>
    have hlast := hstep _ _ _ hs
    rw [List.length_append, List.length_singleton]
    omega

/-- Where every step lowers a rank, the system comes to a state in which it takes no step. -/
theorem exists_stuck (rank : σ → ℕ) (hstep : ∀ u op v, A.step u op v → rank v < rank u) (s : σ) :
    ∃ w, A.Reachable s w ∧ ∀ op v, ¬ A.step w op v := by
  induction hn : rank s using Nat.strong_induction_on generalizing s with
  | h n ih =>
    by_cases hstuck : ∀ op v, ¬ A.step s op v
    · exact ⟨s, .refl s, hstuck⟩
    · push Not at hstuck
      obtain ⟨op, v, hs⟩ := hstuck
      obtain ⟨w, ⟨ops, hrun⟩, hw⟩ := ih _ (hn ▸ hstep _ _ _ hs) v rfl
      exact ⟨w, ⟨_, .cons hs hrun⟩, hw⟩

/-- The rule for systems that come to rest: every step from a state with the invariant `I` lowers a
rank, and `P` holds where no step is left. -/
theorem comes_to_rest {I P : σ → Prop} (rank : σ → ℕ) (h₀ : I s)
    (hkeep : ∀ u op v, I u → A.step u op v → I v)
    (hrank : ∀ u op v, I u → A.step u op v → rank v < rank u)
    (hrest : ∀ u, I u → (∀ op v, ¬ A.step u op v) → P u) :
    (∀ ops u, A.Run s ops u → ops.length ≤ rank s) ∧ (∃ u, A.Reachable s u ∧ P u) ∧
      ∀ u, A.Reachable s u → (∀ op v, ¬ A.step u op v) → P u := by
  have hlower : ∀ u op v, (A.guard fun u _ => I u).step u op v → rank v < rank u :=
    fun u op v hs => hrank u op v hs.2 hs.1
  have hstop : ∀ u, A.Reachable s u → (∀ op v, ¬ A.step u op v) → P u :=
    fun u hu hstuck => hrest u (hu.invariant h₀ hkeep) hstuck
  refine ⟨fun ops u hrun => ?_, ?_, hstop⟩
  · have hle := (hrun.guard_invariant h₀ hkeep).length_le_rank rank hlower
    omega
  · obtain ⟨u, ⟨ops, hrun⟩, hstuck⟩ := exists_stuck rank hlower s
    have hu : A.Run s ops u := hrun.mono fun _ _ _ _ hs => hs.1
    exact ⟨u, ⟨ops, hu⟩, hstop u ⟨ops, hu⟩ fun op v hs => hstuck op v ⟨hs, hu.invariant h₀ hkeep⟩⟩

/-- The labels that requests make, when those that count are numbered from `n` on. -/
def numbered {ρ : Type*} (counts : ρ → Bool) (labels : ℕ → ρ → List ℓ) : ℕ → List ρ → List ℓ
  | _, [] => []
  | n, r :: rs => labels n r ++ numbered counts labels (if counts r then n + 1 else n) rs

theorem numbered_append {ρ : Type*} {counts : ρ → Bool} {labels : ℕ → ρ → List ℓ} {n : ℕ}
    {rs : List ρ} {r : ρ} : numbered counts labels n (rs ++ [r]) =
      numbered counts labels n rs ++ labels (n + rs.countP counts) r := by
  induction rs generalizing n with
  | nil => simp [numbered]
  | cons r' rs ih =>
    rw [List.cons_append, numbered, ih, numbered, List.append_assoc, List.countP_cons]
    split_ifs <;> simp [Nat.add_comm, Nat.add_left_comm]

/-- The rule for a property `P` that is kept as long as, and no longer than, the steps meet `C`:
an invariant `I` is behind it while they do, and a step that does not meet `C` ends in a state
without it. -/
theorem Run.forall_prefix_iff {I P : σ → Prop} {C : σ → ℓ → Prop} (hdet : A.Deterministic)
    (h : A.Run s ops w) (h₀ : I s) (hP : ∀ u, I u → P u)
    (hkeep : ∀ u op w, op ∈ ops → I u → A.step u op w → C u op → I w)
    (hbreak : ∀ u op w, op ∈ ops → I u → A.step u op w → P w → C u op) :
    (∀ pre u, pre <+: ops → A.Run s pre u → P u) ↔
      ∀ pre op u, pre ++ [op] <+: ops → A.Run s pre u → C u op := by
  have hmem : ∀ {pre op}, pre ++ [op] <+: ops → op ∈ ops := fun hpre => hpre.subset (by simp)
  have hinit : ∀ {pre op}, pre ++ [op] <+: ops → pre <+: ops :=
    fun hpre => (List.prefix_append _ _).trans hpre
  constructor
  · intro hall
    -- as long as `P` holds the steps meet `C`, which keeps the invariant
    have hI : ∀ pre u, pre <+: ops → A.Run s pre u → I u := by
      intro pre u hpre hu
      induction hu with
      | nil => exact h₀
      | snoc hu hs ih =>
        have hIu := ih (hinit hpre)
        exact hkeep _ _ _ (hmem hpre) hIu hs
          (hbreak _ _ _ (hmem hpre) hIu hs (hall _ _ hpre (hu.snoc hs)))
    intro pre op u hpre hu
    obtain ⟨v, hv⟩ := h.of_prefix hpre
    obtain ⟨u', hu', hs⟩ := run_snoc_iff.1 hv
    obtain rfl := hdet.run_unique hu hu'
    exact hbreak _ _ _ (hmem hpre) (hI pre u (hinit hpre) hu) hs (hall _ v hpre hv)
  · intro hC pre u hpre hu
    refine hP u ?_
    induction hu with
    | nil => exact h₀
    | snoc hu hs ih => exact hkeep _ _ _ (hmem hpre) (ih (hinit hpre)) hs (hC _ _ _ hpre hu)

/-! ### Systems of a function -/

/-- The steps that are possible. -/
def ofNext (next : σ → ℓ → Option σ) : LTS σ ℓ where
  step u op w := next u op = some w

/-- Steps made one after the other. -/
theorem run_of_foldlM {next : σ → ℓ → Option σ} (h : ops.foldlM next s = some w) :
    (ofNext next).Run s ops w := by
  induction ops generalizing s with
  | nil =>
    obtain rfl := Option.some.inj h
    exact .nil
  | cons op ops ih =>
    rw [List.foldlM_cons] at h
    obtain ⟨u, hu, hrest⟩ := Option.bind_eq_some_iff.1 h
    exact .cons hu (ih hrest)

theorem run_guard_of_foldlM {next : σ → ℓ → Option σ} {C : σ → ℓ → Prop}
    [∀ u op, Decidable (C u op)]
    (h : ops.foldlM (fun u op => if C u op then next u op else none) s = some w) :
    ((ofNext next).guard C).Run s ops w := by
  refine (run_of_foldlM h).mono fun u op w _ hs => ?_
  have hs : (if C u op then next u op else none) = some w := hs
  split_ifs at hs with hC
  exact ⟨hs, hC⟩

/-- The calls `ops` one after the other, as long as they do not fail and meet `C`. -/
def play {ε : Type*} (exec : σ → ℓ → Except ε σ) (C : σ → ℓ → Prop) [∀ u op, Decidable (C u op)] :
    σ → List ℓ → Option σ
  | s, [] => some s
  | s, op :: ops =>
    if C s op then
      match exec s op with
      | .ok u => play exec C u ops
      | .error _ => none
    else none

theorem run_of_play {ε : Type*} {exec : σ → ℓ → Except ε σ} {C : σ → ℓ → Prop}
    [∀ u op, Decidable (C u op)] (h : play exec C s ops = some w) :
    ((ofExec exec).guard C).Run s ops w := by
  induction ops generalizing s with
  | nil =>
    obtain rfl := Option.some.inj h
    exact .nil
  | cons op ops ih =>
    unfold play at h
    split at h
    · rename_i hC
      split at h
      · rename_i u hu
        exact .cons ⟨hu, hC⟩ (ih h)
      · cases h
    · cases h

end LTS

end LinuxServer
