import LinuxServer.SortedList.Held
import Mathlib.Data.List.TakeWhile

/-!
# The ends of the list of timers

A tick sets `head` as it frees timer after timer, and leaves `tail` alone.  When it has freed the
last one, `head` is null and `tail` dangles, until a timer is added.

* `adjustingLTS`: programs that may set the deadline of a timer to whatever value.
* `EndsListed w`: the ends of the list are null or timers in it.
* `Leaves w op`: the call does not take all timers out.

`endsListed_iff_leaves`: the ends are as they should be as long as all calls leave some timer.
-/

namespace LinuxServer

namespace SortedList

open Memory SortedQueue Node

variable {w w' u : World} {L D S : List (Addr × TimerData)} {p : Addr} {cur : ℤ} {op : Op}

/-- What is adjusted is a timer in the list. -/
def Listed (w : World) : Op → Prop
  | .delay p _ => w.Held p
  | .add _ | .tick _ => True

instance (w : World) (op : Op) : Decidable (Listed w op) :=
  match op with
  | .delay p _ => inferInstanceAs (Decidable (w.Held p))
  | .add _ | .tick _ => .isTrue trivial

/-- The calls of a program that adds timers, sets their deadlines to whatever values, and ticks. -/
def adjustingLTS : LTS World Op := (LTS.ofExec exec).guard Listed

/-- `head` and `tail` are both null, or both point to timers that are in the list and not freed. -/
def EndsListed (w : World) : Prop :=
  (w.list.head = none ∧ w.list.tail = none) ∨
    ∃ L, w.list.head = first L none ∧ Chain w.timers none L none ∧
      (∃ p ∈ addrs L, w.list.head = some p ∧ w.timers.Live p) ∧
      ∃ q ∈ addrs L, w.list.tail = some q ∧ w.timers.Live q

/-- A tick finds an empty list or a timer that is not due. -/
def Leaves (w : World) : Op → Prop
  | .tick cur => w.list.head = none ∨ ∃ p t, w.Held p ∧ w.timers.get? p = some t ∧ cur < t.expire
  | .add _ | .delay _ _ => True

/-- The list has the timers `L`, and `tail` is null when there are none. -/
structure Ended (w : World) (L : List (Addr × TimerData)) : Prop where
  linked : Linked w L
  tail_null : L = [] → w.list.tail = none

theorem Ended.endsListed (h : Ended w L) : EndsListed w := by
  have hrep := h.linked.rep
  rcases L with _ | ⟨⟨a, c⟩, S⟩
  · exact .inl ⟨hrep.head, h.tail_null rfl⟩
  · obtain ⟨b, hb, hlast⟩ := exists_last a S
    refine .inr ⟨_, hrep.head, hrep.chain, ⟨a, List.mem_cons_self, hrep.head, ?_⟩, b, hb, ?_, ?_⟩
    · exact hrep.chain.live List.mem_cons_self
    · exact (hrep.tail (List.cons_ne_nil _ _)).trans hlast
    · exact hrep.chain.live hb

theorem Linked.leaves_iff_dropWhile (h : Linked w L) : Leaves w (.tick cur) ↔
    L = [] ∨ (L.dropWhile fun e => deadline e ≤ cur) ≠ [] := by
  have hhead : w.list.head = none ↔ L = [] := by
    rw [h.rep.head]
    cases L with
    | nil => exact iff_of_true rfl rfl
    | cons => exact iff_of_false (Option.some_ne_none _) (List.cons_ne_nil _ _)
  rw [Leaves, hhead, ne_eq, List.dropWhile_eq_nil_iff]
  refine or_congr_right ?_
  simp only [not_forall, exists_prop]
  constructor
  · rintro ⟨p, t, hp, ht, hlt⟩
    obtain ⟨c, hc⟩ := mem_addrs.1 ((h.held p).1 hp)
    obtain ⟨D, S, rfl⟩ := List.append_of_mem hc
    obtain rfl := Option.some.inj ((chain_mid.1 h.rep.chain).2.1.symm.trans ht)
    exact ⟨(p, c), hc, fun hle => Int.not_le.2 hlt (of_decide_eq_true hle)⟩
  · rintro ⟨⟨p, c⟩, hc, hlater⟩
    obtain ⟨D, S, rfl⟩ := List.append_of_mem hc
    refine ⟨p, _, (h.held p).2 (mem_addrs_of_mem hc), (chain_mid.1 h.rep.chain).2.1, ?_⟩
    exact Int.not_le.1 fun hle => hlater (decide_eq_true hle)

theorem Ended.step (h : Ended u L) (hstep : adjustingLTS.step u op w) (hleaves : Leaves u op) :
    ∃ L', Ended w L' := by
  obtain ⟨hexec, hlisted⟩ := hstep
  have hexec : exec u op = .ok w := hexec
  cases op with
  | add data =>
    obtain ⟨v, hexec', -, hlinked⟩ := h.linked.add data
    obtain rfl : v = w := Except.ok.inj (hexec'.symm.trans hexec)
    refine ⟨_, hlinked, fun hnil => ?_⟩
    exact absurd hnil (List.ne_nil_of_mem (mem_enqueue.2 (.inl rfl)))
  | delay p expire =>
    obtain ⟨c, hc⟩ := mem_addrs.1 ((h.linked.held p).1 hlisted)
    obtain ⟨D, S, rfl⟩ := List.append_of_mem hc
    obtain ⟨v, hexec', -, hlinked⟩ := h.linked.delay expire
    obtain rfl : v = w := Except.ok.inj (hexec'.symm.trans hexec)
    refine ⟨_, hlinked, fun hnil => ?_⟩
    exact absurd hnil (List.ne_nil_of_mem (List.mem_append_right D (mem_enqueue.2 (.inl rfl))))
  | tick cur =>
    obtain ⟨v, hexec', -, htail, hlinked⟩ := h.linked.tick (h.linked.set_of_tick hexec)
    obtain rfl : v = w := Except.ok.inj (hexec'.symm.trans hexec)
    refine ⟨_, hlinked, fun hnil => htail.trans (h.tail_null ?_)⟩
    exact (h.linked.leaves_iff_dropWhile.1 hleaves).resolve_right fun hne => hne hnil

/-- A tick that takes all timers out leaves `tail` pointing to the last one. -/
theorem Ended.leaves (h : Ended u L) (hstep : adjustingLTS.step u op w) (hends : EndsListed w) :
    Leaves u op := by
  obtain ⟨hexec, -⟩ := hstep
  have hexec : exec u op = .ok w := hexec
  cases op with
  | add data => trivial
  | delay p expire => trivial
  | tick cur =>
    obtain ⟨v, hexec', -, htail, hlinked⟩ := h.linked.tick (h.linked.set_of_tick hexec)
    obtain rfl : v = w := Except.ok.inj (hexec'.symm.trans hexec)
    refine h.linked.leaves_iff_dropWhile.2 ?_
    by_contra hdrains
    obtain ⟨hne, hnil⟩ := not_or.1 hdrains
    have hhead : v.list.head = none := by rw [hlinked.rep.head, not_not.1 hnil]; rfl
    obtain ⟨⟨a, c⟩, S, rfl⟩ := List.exists_cons_of_ne_nil hne
    obtain ⟨b, -, hlast⟩ := exists_last a S
    have hdangles : v.list.tail = some b :=
      htail.trans ((h.linked.rep.tail (List.cons_ne_nil _ _)).trans hlast)
    rcases hends with ⟨-, hnull⟩ | ⟨-, -, -, ⟨p, -, hp, -⟩, -⟩
    · cases hdangles.symm.trans hnull
    · cases hhead.symm.trans hp

/-- **The ends of the list** are null or timers in the list, in all states of a run, exactly when
every tick of the run finds an empty list or a timer that is not due. -/
theorem endsListed_iff_leaves {ops : List Op} (hrun : adjustingLTS.Run .init ops w) :
    (∀ pre u, pre <+: ops → adjustingLTS.Run .init pre u → EndsListed u) ↔
      ∀ pre op u, pre ++ [op] <+: ops → adjustingLTS.Run .init pre u → Leaves u op := by
  refine hrun.forall_prefix_iff (I := fun u => ∃ L, Ended u L)
    ((LTS.ofExec_deterministic exec).guard Listed) ⟨[], linked_init, fun _ => rfl⟩ ?_ ?_ ?_
  · rintro u ⟨L, hL⟩
    exact hL.endsListed
  · rintro u op w - ⟨L, hL⟩ hstep hleaves
    exact hL.step hstep hleaves
  · rintro u op w - ⟨L, hL⟩ hstep hends
    exact hL.leaves hstep hends

/-- Of two timers one is due. -/
theorem endsListed_iff_leaves_twoTimers : ∃ w, adjustingLTS.Run .init
      [.add ⟨3, some 7, none⟩, .add ⟨5, some 7, none⟩, .tick 4] w ∧ EndsListed w := by
  have hplay : LTS.play exec Listed .init
      [.add ⟨3, some 7, none⟩, .add ⟨5, some 7, none⟩, .tick 4] = some _ := rfl
  have hfirst : LTS.play exec Listed .init
      [.add ⟨3, some 7, none⟩, .add ⟨5, some 7, none⟩] = some _ := rfl
  have hrun := LTS.run_of_play hplay
  refine ⟨_, hrun, (endsListed_iff_leaves hrun).2 ?_ _ _ (List.prefix_refl _) hrun⟩
  intro pre op u hpre hu
  cases op with
  | add data => trivial
  | delay p expire => trivial
  | tick cur =>
    have hlast : pre = [.add ⟨3, some 7, none⟩, .add ⟨5, some 7, none⟩] ∧ cur = 4 := by
      obtain ⟨post, hpost⟩ := hpre
      rcases pre with _ | ⟨op₁, _ | ⟨op₂, _ | ⟨op₃, pre⟩⟩⟩ <;> simp_all
    obtain ⟨rfl, rfl⟩ := hlast
    obtain rfl := ((LTS.ofExec_deterministic exec).guard Listed).run_unique
      (LTS.run_of_play hfirst) hu
    exact .inr ⟨1, _, by decide, rfl, by decide⟩

/-- The only timer is due. -/
theorem not_endsListed_drained : ¬ ∀ ops w, adjustingLTS.Run .init ops w → EndsListed w := by
  intro hall
  have hplay : LTS.play exec Listed .init [.add ⟨3, some 7, none⟩, .tick 5] =
      some ⟨⟨[none], [0]⟩, ⟨none, some 0⟩, [0], [⟨0, 7, none⟩]⟩ := rfl
  rcases hall _ _ (LTS.run_of_play hplay) with ⟨-, hnull⟩ | ⟨-, -, -, ⟨p, -, hp, -⟩, -⟩
  · cases hnull
  · cases hp

end SortedList

end LinuxServer
