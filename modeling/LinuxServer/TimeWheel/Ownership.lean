import LinuxServer.TimeWheel.OnTime

/-!
# Who owns the timers

* `destroy_spec`: the destructor frees the timers of all slots.
* `Owns w L`: the wheel has the timers `L`, which are those added and neither deleted nor fired, and
  all others are freed.
* `Owns.leave`: what deletions and ticks have in common: timers leave the lists and are freed.
* `Correct w L`: the lists are linked, and have their timers, as they should.
* `owned_of_run`: so it is after every run, and the destructor then frees what is left.
-/

namespace LinuxServer

namespace TimeWheel

open Memory Node

variable {m m' : Store TwTimer} {h h' : Wheel} {L : ℕ → List (Addr × TimerData)}
  {D S X : List (Addr × TimerData)} {a : Addr} {c : TimerData} {q : Ptr} {fuel i j : ℕ}
  {gone is : List ℕ} {w w' : World}

/-! ### The destructor -/

theorem destroyLoop_spec (hchain : Chain m q S none) (hnodup : (addrs S).Nodup)
    (hfuel : S.length ≤ fuel) :
    ∃ m', destroyLoop fuel (first S none) m = .ok (m', none) ∧ m'.fresh = m.fresh ∧
      m'.freed = m.freed ++ addrs S ∧ ∀ a, a ∉ addrs S → m'.get? a = m.get? a := by
  induction S generalizing m q fuel with
  | nil =>
    have hloop : destroyLoop fuel none m = .ok (m, none) := by cases fuel <;> rfl
    exact ⟨m, hloop, rfl, (List.append_nil _).symm, fun _ _ => rfl⟩
  | cons e S ih =>
    obtain ⟨a, c⟩ := e
    obtain ⟨fuel, rfl⟩ : ∃ k, fuel = k + 1 := Nat.exists_eq_add_one.2 (by simp at hfuel; omega)
    have hfuel : S.length ≤ fuel := by simpa using hfuel
    rw [addrs_cons, List.nodup_cons] at hnodup
    have hread : m.read (some a) = .ok (node c q (first S none)) :=
      Store.read_eq_ok.2 ⟨a, rfl, hchain.1⟩
    have hfree := (Store.live_of_get? hchain.1).free_eq
    obtain ⟨m', hloop, hfresh, hfreed, hframe⟩ := ih (hchain.2.erase hnodup.1) hnodup.2 hfuel
    refine ⟨m', ?_, hfresh.trans Store.fresh_erase, ?_, fun b hb => ?_⟩
    · rw [first_cons, destroyLoop, hread, ok_bind]
      show (m.free (some a) >>= fun m => destroyLoop fuel (first S none) m) = _
      rw [hfree, ok_bind, hloop]
    · rw [hfreed, Store.freed_erase, addrs_cons, List.append_assoc]
      rfl
    · rw [addrs_cons, List.mem_cons, not_or] at hb
      rw [hframe b hb.2, Store.get?_erase_of_ne hb.1]

theorem destroySlots_spec (hchain : ∀ i ∈ is, Chain m none (L i) none)
    (hdisj : is.Pairwise fun i j => (addrs (L i)).Disjoint (addrs (L j))) :
    ∃ m', destroySlots (is.map fun i => first (L i) none) m = .ok (m', is.map fun _ => none) ∧
      m'.freed = m.freed ++ is.flatMap fun i => addrs (L i) := by
  induction is generalizing m with
  | nil => exact ⟨m, rfl, (List.append_nil _).symm⟩
  | cons i is ih =>
    obtain ⟨hi, hdisj⟩ := List.pairwise_cons.1 hdisj
    have hslot := hchain i List.mem_cons_self
    obtain ⟨m₁, hloop, -, hfreed₁, hframe⟩ := destroyLoop_spec hslot hslot.nodup hslot.length_le
    -- the other slots are as they were
    have hrest : ∀ j ∈ is, Chain m₁ none (L j) none := fun j hj =>
      (hchain j (List.mem_cons_of_mem _ hj)).congr fun a ha => hframe a fun hai => hi j hj hai ha
    obtain ⟨m', hslots, hfreed⟩ := ih hrest hdisj
    refine ⟨m', ?_, ?_⟩
    · rw [List.map_cons, destroySlots, hloop, ok_bind]
      show (destroySlots _ m₁ >>= _) = _
      rw [hslots, ok_bind]
      rfl
    · rw [hfreed, hfreed₁, List.flatMap_cons, List.append_assoc]

theorem Rep.slots_eq (hr : Rep m h L) :
    h.slots = (List.range N).map fun i => first (L i) none := by
  refine List.ext_getElem? fun i => ?_
  by_cases hi : i < N
  · rw [hr.head i hi, List.getElem?_map, List.getElem?_range hi]
    rfl
  · rw [List.getElem?_eq_none (by rw [hr.length]; omega),
      List.getElem?_eq_none (by rw [List.length_map, List.length_range]; omega)]

theorem Rep.disjoint (hr : Rep m h L) :
    (List.range N).Pairwise fun i j => (addrs (L i)).Disjoint (addrs (L j)) := by
  refine List.Pairwise.imp_of_mem ?_ (List.pairwise_lt_range (n := N))
  intro i j hi hj hlt a hai haj
  exact hlt.ne (hr.slot_inj (List.mem_range.1 hi) (List.mem_range.1 hj) hai haj)

/-- All timers in the slots. -/
def allOf (L : ℕ → List (Addr × TimerData)) : List Addr :=
  (List.range N).flatMap fun i => addrs (L i)

theorem mem_allOf : a ∈ allOf L ↔ ∃ i < N, a ∈ addrs (L i) := by
  simp [allOf]

theorem Rep.nodup_allOf (hr : Rep m h L) : (allOf L).Nodup :=
  List.nodup_flatMap.2 ⟨fun i hi => (hr.chain i (List.mem_range.1 hi)).nodup, hr.disjoint⟩

theorem destroy_spec (hr : Rep m h L) :
    ∃ m' h', h.destroy m = .ok (m', h') ∧ m'.freed = m.freed ++ allOf L := by
  obtain ⟨m', hslots, hfreed⟩ :=
    destroySlots_spec (fun i hi => hr.chain i (List.mem_range.1 hi)) hr.disjoint
  refine ⟨m', { h with slots := (List.range N).map fun _ => none }, ?_, hfreed⟩
  rw [Wheel.destroy, hr.slots_eq, hslots]
  rfl

/-! ### Runs -/

/-- The wheel has the timers `L`: those added and neither deleted nor fired.  The others are
freed. -/
structure Owns (w : World) (L : ℕ → List (Addr × TimerData)) : Prop where
  rep : Rep w.timers w.wheel L
  held : ∀ p, (∃ i < N, p ∈ addrs (L i)) ↔ w.Held p
  known : ∀ p, p ∈ w.deleted ∨ p ∈ w.calls.map (fun e => e.2.timer) → p ∈ w.added
  freed : ∀ p, p ∈ w.timers.freed ↔ p ∈ w.added ∧ ¬ w.Held p
  nodup : w.timers.freed.Nodup
  fresh : ∀ p ∈ w.added, p < w.timers.fresh

/-- The timers that are still in the wheel stay in their slots, in their order. -/
def KeepsOrder (w : World) (L L' : ℕ → List (Addr × TimerData)) : Prop :=
  ∀ i < N, addrs (L' i) = (addrs (L i)).filter fun p => w.Held p

theorem owns_init : Owns .init fun _ => [] where
  rep := rep_init
  held p := by simp [World.Held, World.init]
  known p hp := by simp [World.init] at hp
  freed p := by simp [World.init, Store.empty]
  nodup := List.nodup_nil
  fresh p hp := absurd hp List.not_mem_nil

theorem Owns.exists_mem (h : Owns w L) {p : Addr} (hp : w.Held p) :
    ∃ i < N, ∃ D c S, L i = D ++ (p, c) :: S := by
  obtain ⟨i, hi, hmem⟩ := (h.held p).2 hp
  obtain ⟨c, hc⟩ := mem_addrs.1 hmem
  obtain ⟨D, S, hL⟩ := List.append_of_mem hc
  exact ⟨i, hi, D, c, S, hL⟩

theorem Owns.add {timeout : ℤ} (h : Owns w L) (ht : 0 ≤ timeout) :
    ∃ w' L', exec w (.add timeout) = .ok w' ∧ Owns w' L' := by
  obtain ⟨m, wheel, hexec, -, hfresh, hfreed, hrep⟩ := exec_add h.rep ht
  have hnew : w.timers.fresh ∉ w.added := fun hmem => lt_irrefl _ (h.fresh _ hmem)
  have hheld : ∀ p,
      ({ w with timers := m, wheel, added := w.added ++ [w.timers.fresh] } : World).Held p ↔
        w.Held p ∨ p = w.timers.fresh := by
    intro p
    by_cases hp : p = w.timers.fresh
    · -- what is new was neither deleted nor fired
      subst hp
      refine iff_of_true ⟨by simp, ?_, ?_⟩ (.inr rfl)
      · exact fun hmem => hnew (h.known _ (.inl hmem))
      · exact fun hmem => hnew (h.known _ (.inr hmem))
    · simp [World.Held, hp]
  refine ⟨_, _, hexec,
    { rep := hrep
      held := fun p => ?_
      known := fun p hp => ?_
      freed := fun p => ?_
      nodup := hfreed ▸ h.nodup
      fresh := fun p hp => ?_ }⟩
  · rw [hheld, ← h.held]
    constructor
    · rintro ⟨i, hi, hp⟩
      by_cases hne : i = w.wheel.slotFor timeout
      · subst hne
        rw [Function.update_self, addrs_cons, List.mem_cons] at hp
        exact hp.elim .inr fun hp => .inl ⟨_, hi, hp⟩
      · rw [Function.update_of_ne hne] at hp
        exact .inl ⟨i, hi, hp⟩
    · rintro (⟨i, hi, hp⟩ | rfl)
      · refine ⟨i, hi, ?_⟩
        by_cases hne : i = w.wheel.slotFor timeout
        · subst hne
          rw [Function.update_self]
          exact List.mem_cons_of_mem _ hp
        · rwa [Function.update_of_ne hne]
      · refine ⟨_, slotFor_lt w.wheel timeout, ?_⟩
        rw [Function.update_self]
        exact List.mem_cons_self
  · exact List.mem_append_left _ (h.known p hp)
  · rw [hheld, hfreed, h.freed, List.mem_append, List.mem_singleton, not_or]
    constructor
    · rintro ⟨hadded, hp⟩
      exact ⟨.inl hadded, hp, fun hp => hnew (hp ▸ hadded)⟩
    · rintro ⟨hadded, hp, hne⟩
      exact ⟨hadded.resolve_right hne, hp⟩
  · rw [hfresh]
    rcases List.mem_append.1 hp with hp | hp
    · exact (h.fresh p hp).trans (Nat.lt_succ_self _)
    · rw [List.mem_singleton.1 hp]
      exact Nat.lt_succ_self _

theorem Owns.set {p : Addr} {cb : ℕ} {data : Ptr} (h : Owns w L) (hp : w.Held p) :
    ∃ w' L', exec w (.set p cb data) = .ok w' ∧ Owns w' L' := by
  obtain ⟨i, hi, D, c, S, hL⟩ := h.exists_mem hp
  obtain ⟨m, hexec, hfresh, hfreed, hrep⟩ := exec_set h.rep hi hL
  have haddrs : ∀ j, addrs (Function.update L i
      (D ++ (p, { c with cbFunc := some cb, userData := data }) :: S) j) = addrs (L j) := by
    intro j
    by_cases hj : j = i
    · subst hj
      rw [Function.update_self, hL, addrs_append, addrs_append, addrs_cons, addrs_cons]
    · rw [Function.update_of_ne hj]
  refine ⟨_, _, hexec,
    { h with
      rep := hrep
      held := fun q => ?_
      freed := fun q => ?_
      nodup := hfreed ▸ h.nodup
      fresh := fun q hq => (h.fresh q hq).trans_eq hfresh.symm }⟩
  · simp only [haddrs]
    exact h.held q
  · rw [hfreed]
    exact h.freed q

/-- The timers `gone` leave the slot `j` and are freed. -/
theorem Owns.leave (h : Owns w L) (hj : j < N)
    (hrep : Rep w'.timers w'.wheel (Function.update L j X))
    (hX : addrs X = (addrs (L j)).filter (· ∉ gone)) (hgone : gone ⊆ addrs (L j))
    (hnodup : gone.Nodup) (hfreed : w'.timers.freed = w.timers.freed ++ gone)
    (hfresh : w'.timers.fresh = w.timers.fresh) (hadded : w'.added = w.added)
    (hheld : ∀ p, w'.Held p ↔ w.Held p ∧ p ∉ gone)
    (hknown : ∀ p, p ∈ w'.deleted ∨ p ∈ w'.calls.map (fun e => e.2.timer) → p ∈ w.added) :
    Owns w' (Function.update L j X) ∧ KeepsOrder w' L (Function.update L j X) := by
  have hother : ∀ i < N, i ≠ j → ∀ p ∈ addrs (L i), p ∉ gone := fun i hi hne p hp hmem =>
    hne (h.rep.slot_inj hi hj hp (hgone hmem))
  have horder : KeepsOrder w' L (Function.update L j X) := by
    intro i hi
    have hkeep : ∀ p ∈ addrs (L i), decide (w'.Held p) = decide (p ∉ gone) := by
      intro p hp
      rw [decide_eq_decide, hheld]
      exact and_iff_right ((h.held p).1 ⟨i, hi, hp⟩)
    rw [List.filter_congr hkeep]
    by_cases hne : i = j
    · subst hne
      rw [Function.update_self, hX]
    · rw [Function.update_of_ne hne]
      exact (List.filter_eq_self.2 fun p hp => decide_eq_true (hother i hi hne p hp)).symm
  have hgoneHeld : ∀ p ∈ gone, w.Held p := fun p hp => (h.held p).1 ⟨j, hj, hgone hp⟩
  refine
    ⟨{ rep := hrep
       held := fun p => ?_
       known := fun p hp => hadded ▸ hknown p hp
       freed := fun p => ?_
       nodup := ?_
       fresh := fun p hp => ?_ }, horder⟩
  · constructor
    · rintro ⟨i, hi, hp⟩
      rw [horder i hi] at hp
      exact of_decide_eq_true (List.mem_filter.1 hp).2
    · intro hp
      obtain ⟨i, hi, hmem⟩ := (h.held p).2 ((hheld p).1 hp).1
      refine ⟨i, hi, ?_⟩
      rw [horder i hi]
      exact List.mem_filter.2 ⟨hmem, decide_eq_true hp⟩
  · rw [hfreed, hadded, hheld, List.mem_append, h.freed, not_and_or, not_not]
    constructor
    · rintro (⟨hp, hnot⟩ | hp)
      · exact ⟨hp, .inl hnot⟩
      · exact ⟨(hgoneHeld p hp).1, .inr hp⟩
    · rintro ⟨hp, hnot | hmem⟩
      · exact .inl ⟨hp, hnot⟩
      · exact .inr hmem
  · rw [hfreed, List.nodup_append']
    refine ⟨h.nodup, hnodup, fun p hp hmem => ?_⟩
    exact ((h.freed p).1 hp).2 (hgoneHeld p hmem)
  · rw [hfresh]
    exact h.fresh p (hadded ▸ hp)

theorem Owns.delete {p : Addr} (h : Owns w L) (hp : w.Held p) :
    ∃ w' L', exec w (.delete (some p)) = .ok w' ∧ Owns w' L' ∧ KeepsOrder w' L L' := by
  obtain ⟨i, hi, D, c, S, hL⟩ := h.exists_mem hp
  obtain ⟨m, wheel, hexec, -, hfresh, hfreed, hrep⟩ := exec_delete h.rep hi hL
  obtain ⟨hpD, hpS, -⟩ := (hL ▸ h.rep.chain i hi).notMem
  have hkeep : ∀ {T : List Addr}, p ∉ T → T.filter (· ∉ [p]) = T := by
    intro T hT
    refine List.filter_eq_self.2 fun q hq => decide_eq_true ?_
    rw [List.mem_singleton]
    exact ne_of_mem_of_not_mem hq hT
  have hX : addrs (D ++ S) = (addrs (L i)).filter (· ∉ [p]) := by
    rw [hL, addrs_append, addrs_append, addrs_cons, List.filter_append,
      List.filter_cons_of_neg (by simp), hkeep hpD, hkeep hpS]
  refine ⟨_, _, hexec, h.leave hi hrep hX (by simp [hL]) (List.nodup_singleton p) hfreed hfresh rfl
    (fun q => ?_) fun q hq => ?_⟩
  · rw [World.Held, World.Held, List.mem_append, not_or]
    constructor
    · rintro ⟨hadded, ⟨hdeleted, hne⟩, hfired⟩
      exact ⟨⟨hadded, hdeleted, hfired⟩, hne⟩
    · rintro ⟨⟨hadded, hdeleted, hfired⟩, hne⟩
      exact ⟨hadded, ⟨hdeleted, hne⟩, hfired⟩
  · rcases hq with hq | hq
    · rcases List.mem_append.1 hq with hq | hq
      · exact h.known q (.inl hq)
      · exact List.mem_singleton.1 hq ▸ hp.1
    · exact h.known q (.inr hq)

theorem addrs_survivors (hnodup : (addrs S).Nodup) :
    addrs (survivors S) = (addrs S).filter (· ∉ addrs (expired S)) := by
  induction S with
  | nil => rfl
  | cons e S ih =>
    obtain ⟨a, c⟩ := e
    rw [addrs_cons, List.nodup_cons] at hnodup
    have hsub : addrs (expired S) ⊆ addrs S := (List.filter_sublist.map _).subset
    by_cases hrot : c.rotation > 0
    · have hstays : a ∉ addrs (expired S) := fun ha => hnodup.1 (hsub ha)
      rw [survivors_cons_of_pos hrot, expired_cons_of_pos hrot, addrs_cons, addrs_cons,
        List.filter_cons_of_pos (by simpa using hstays), ih hnodup.2]
    · rw [survivors_cons_of_not hrot, expired_cons_of_not hrot, addrs_cons, addrs_cons,
        List.filter_cons_of_neg (by simp), ih hnodup.2]
      refine List.filter_congr fun b hb => ?_
      rw [decide_eq_decide, List.mem_cons, not_or]
      exact (and_iff_right (ne_of_mem_of_not_mem hb hnodup.1)).symm

theorem Owns.tick (h : Owns w L)
    (hset : ∀ p t, w.Held p → w.timers.get? p = some t → t.cbFunc ≠ none) :
    ∃ w' L', exec w .tick = .ok w' ∧ Owns w' L' ∧ KeepsOrder w' L L' := by
  have hcur := h.rep.cur
  have hnodup := (h.rep.chain _ hcur).nodup
  have hsub : (addrs (expired (L w.wheel.curSlot))).Sublist (addrs (L w.wheel.curSlot)) :=
    List.filter_sublist.map _
  have hready : Ready (L w.wheel.curSlot) := by
    rintro ⟨p, c⟩ he
    have hmem := (mem_expired.1 he).1
    obtain ⟨_, _, hget⟩ := h.rep.get? hcur hmem
    exact hset p _ ((h.held p).1 ⟨_, hcur, mem_addrs_of_mem hmem⟩) hget
  obtain ⟨m, wheel, htick, -, hfresh, hfreed, hrep⟩ := tick_spec h.rep hready
  have hexec : exec w .tick = .ok
      { w with
        timers := m
        wheel
        ticks := w.ticks + 1
        calls := w.calls ++ (callsOf (L w.wheel.curSlot)).map fun call =>
          (w.ticks + 1, call) } := by
    rw [exec, htick]
    rfl
  have hcalls : (w.calls ++ (callsOf (L w.wheel.curSlot)).map fun call => (w.ticks + 1, call)).map
      (fun e => e.2.timer) =
      w.calls.map (fun e => e.2.timer) ++ addrs (expired (L w.wheel.curSlot)) := by
    rw [List.map_append, List.map_map, ← map_timer_callsOf hready]
    rfl
  refine ⟨_, _, hexec, h.leave hcur hrep (addrs_survivors hnodup) hsub.subset (hnodup.sublist hsub)
    hfreed hfresh rfl (fun p => ?_) fun p hp => ?_⟩
  · rw [World.Held, World.Held, hcalls, List.mem_append, not_or, and_assoc, and_assoc]
  · rw [hcalls] at hp
    rcases hp with hp | hp
    · exact h.known p (.inl hp)
    · rcases List.mem_append.1 hp with hp | hp
      · exact h.known p (.inr hp)
      · exact ((h.held p).1 ⟨_, hcur, hsub.subset hp⟩).1

/-- The calls by which timers leave the wheel. -/
def Op.Removes : Op → Prop
  | .delete _ | .tick => True
  | .add _ | .set _ _ _ => False

theorem Owns.exec {op : Op} (h : Owns w L) (hlegal : Legal w op) :
    ∃ w' L', exec w op = .ok w' ∧ Owns w' L' ∧ (op.Removes → KeepsOrder w' L L') := by
  cases op with
  | add timeout =>
    by_cases ht : timeout < 0
    · have hexec : TimeWheel.exec w (.add timeout) = .ok { w with added := w.added ++ [] } := by
        rw [TimeWheel.exec, Wheel.addTimer, if_pos ht]
        rfl
      rw [List.append_nil] at hexec
      exact ⟨w, L, hexec, h, False.elim⟩
    · obtain ⟨w', L', hexec, hw'⟩ := h.add (Int.not_lt.1 ht)
      exact ⟨w', L', hexec, hw', False.elim⟩
  | set p cb data =>
    obtain ⟨w', L', hexec, hw'⟩ := h.set hlegal
    exact ⟨w', L', hexec, hw', False.elim⟩
  | delete p =>
    cases p with
    | none =>
      have hexec : TimeWheel.exec w (.delete none) =
          .ok { w with deleted := w.deleted ++ [] } := rfl
      rw [List.append_nil] at hexec
      refine ⟨w, L, hexec, h, fun _ i hi => ?_⟩
      exact (List.filter_eq_self.2 fun p hp => decide_eq_true ((h.held p).1 ⟨i, hi, hp⟩)).symm
    | some p =>
      obtain ⟨w', L', hexec, hw', horder⟩ := h.delete hlegal
      exact ⟨w', L', hexec, hw', fun _ => horder⟩
  | tick =>
    obtain ⟨w', L', hexec, hw', horder⟩ := h.tick hlegal
    exact ⟨w', L', hexec, hw', fun _ => horder⟩

theorem exists_owns {ops : List Op} (hrun : timeWheelLTS.Run .init ops w) : ∃ L, Owns w L := by
  refine LTS.Run.invariant (I := fun w => ∃ L, Owns w L) hrun ⟨_, owns_init⟩ ?_
  intro u op v hu hstep
  obtain ⟨L, hL⟩ := hu
  obtain ⟨v', L', hexec, hv', -⟩ := hL.exec hstep.2
  obtain rfl : v' = v := Except.ok.inj (hexec.symm.trans hstep.1)
  exact ⟨L', hv'⟩

/-- The hand is at a slot; slot `i` leads through the timers `L i`, linked both ways and with the
first behind none, which know their slot and have no rotation below zero; all slots together have
the timers that were added and neither deleted nor fired, each once. -/
structure Correct (w : World) (L : ℕ → List (Addr × TimerData)) : Prop where
  cur : w.wheel.curSlot < N
  length : w.wheel.slots.length = N
  head : ∀ i < N, w.wheel.slots[i]? = some (first (L i) none)
  links : ∀ i < N, Chain w.timers none (L i) none
  slot : ∀ i < N, ∀ e ∈ L i, e.2.timeSlot = i ∧ 0 ≤ e.2.rotation
  nodup : (allOf L).Nodup
  held : ∀ p, p ∈ allOf L ↔ w.Held p

theorem Owns.correct (h : Owns w L) : Correct w L where
  cur := h.rep.cur
  length := h.rep.length
  head := h.rep.head
  links := h.rep.chain
  slot := h.rep.slot
  nodup := h.rep.nodup_allOf
  held p := mem_allOf.trans (h.held p)

theorem Owns.destroy (h : Owns w L) : ∃ m h', w.wheel.destroy w.timers = .ok (m, h') ∧
    m.freed.Nodup ∧ ∀ p, p ∈ m.freed ↔ p ∈ w.added := by
  obtain ⟨m, h', hdestroy, hfreed⟩ := destroy_spec h.rep
  refine ⟨m, h', hdestroy, ?_, fun p => ?_⟩
  · rw [hfreed, List.nodup_append']
    refine ⟨h.nodup, h.rep.nodup_allOf, fun p hp hmem => ?_⟩
    exact ((h.freed p).1 hp).2 ((h.held p).1 (mem_allOf.1 hmem))
  · rw [hfreed, List.mem_append, h.freed, mem_allOf, h.held]
    by_cases hp : w.Held p
    · simp [hp, hp.1]
    · simp [hp]

/-- **The wheel owns its timers.**  After every run the lists are as they should be, and every call
that the program may make returns; a deletion or a tick leaves the lists as they should be, with the
other timers in their slots and their order; and when the destructor ends the run it returns, and
every timer added is freed once. -/
theorem owned_of_run {ops : List Op} (hrun : timeWheelLTS.Run .init ops w) :
    ∃ L, Correct w L ∧
      (∀ op, Legal w op → ∃ w', timeWheelLTS.step w op w') ∧
      (∀ op w', timeWheelLTS.step w op w' → op.Removes → ∃ L', Correct w' L' ∧ KeepsOrder w' L L') ∧
      ∃ m h, w.wheel.destroy w.timers = .ok (m, h) ∧ m.freed.Nodup ∧
        ∀ p, p ∈ m.freed ↔ p ∈ w.added := by
  obtain ⟨L, hL⟩ := exists_owns hrun
  refine ⟨L, hL.correct, fun op hlegal => ?_, fun op w' hstep hremoves => ?_, hL.destroy⟩
  · obtain ⟨w', -, hexec, -⟩ := hL.exec hlegal
    exact ⟨w', hexec, hlegal⟩
  · obtain ⟨v, L', hexec, hv, horder⟩ := hL.exec hstep.2
    obtain rfl : v = w' := Except.ok.inj (hexec.symm.trans hstep.1)
    exact ⟨L', hv.correct, horder hremoves⟩

/-- Of three timers in one slot the one between is deleted. -/
theorem owned_of_run_delete : ∃ w L, timeWheelLTS.Run .init
    [.add 1, .set 0 7 none, .add 61, .set 1 7 none, .add 1, .set 2 8 none, .delete (some 1),
      .tick] w ∧ Correct w L ∧ first (L 1) none = some 2 := by
  have hplay : (LTS.play exec Legal .init
      [.add 1, .set 0 7 none, .add 61, .set 1 7 none, .add 1, .set 2 8 none, .delete (some 1),
        .tick]).map (fun w => w.wheel.slots[1]?) = some (some (some 2)) := rfl
  obtain ⟨w, hw, hslot⟩ := Option.map_eq_some_iff.1 hplay
  obtain ⟨L, hL, -⟩ := owned_of_run (LTS.run_of_play hw)
  exact ⟨w, L, LTS.run_of_play hw, hL, Option.some.inj ((hL.head 1 (by decide)).symm.trans hslot)⟩

end TimeWheel

end LinuxServer
