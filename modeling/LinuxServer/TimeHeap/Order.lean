import LinuxServer.TimeHeap.Runs

/-!
# Heap order

`percolate_down` compares the timer in the hole's slot, not the one it puts in the place of the
root; from the second round on this timer has moved up already, so that in an ordered heap the last
timer sinks one level at most.

* `OneLevel m h`: one level is enough.
* `Correct w`: what a heap is there for.

`pop_ordered_iff`: an ordered heap is ordered after a pop iff one level is enough.
`correct_iff_oneLevel`: a run keeps the heap correct iff this holds of all its pops.
-/

namespace LinuxServer

namespace TimeHeap

open Memory BinaryHeap Relation

open scoped List

variable {m m' : Store HeapTimer} {h h' : Heap} {added : List Addr} {i j : ℕ}

/-- The last timer, which takes the place of the root and then of the lesser child of the root if
this expires earlier, does not expire after a child of that. -/
def OneLevel (m : Store HeapTimer) (h : Heap) : Prop :=
  let c := lesserChild (h.dropRoot m).1 (h.curSize - 1) (h.dropRoot m).2.array 0
  Sinks (h.dropRoot m).1 (h.curSize - 1) (h.dropRoot m).2.array 0 c →
    ∀ i, 0 < i → i < h.curSize - 1 → parent i = c →
      key (h.dropRoot m).1 (h.dropRoot m).2.array 0 ≤ key (h.dropRoot m).1 (h.dropRoot m).2.array i

instance : Decidable (OneLevel m h) :=
  inferInstanceAs (Decidable (_ ∧ _ → ∀ i, 1 ≤ i → i < h.curSize - 1 → parent i = _ → _ ≤ _))

/-- The heap is ordered. -/
structure Good (added : List Addr) (m : Store HeapTimer) (h : Heap) : Prop
    extends Kept added m h where
  ordered : Ordered (key m h.array) h.curSize

section Pop

variable (hg : Good added m h) (h1 : 1 ≤ h.curSize - 1)
include hg h1

theorem Good.key_below (hi0 : 0 < i) (hi : i ≤ h.curSize - 1) :
    key (h.dropRoot m).1 (h.dropRoot m).2.array i = key m h.array i := by
  rw [dropRoot_key hg.shape h1 hi, Function.update_of_ne hi0.ne']

theorem Good.lesserChild_min (hi0 : 0 < i) (hi : i ≤ h.curSize - 1) (hp : parent i = 0) :
    lesserChild (h.dropRoot m).1 (h.curSize - 1) (h.dropRoot m).2.array 0 ≤ h.curSize - 1 ∧
      key m h.array (lesserChild (h.dropRoot m).1 (h.curSize - 1) (h.dropRoot m).2.array 0) ≤
        key m h.array i := by
  have hk1 := hg.key_below h1 Nat.one_pos h1
  unfold lesserChild
  split
  · rename_i hlt
    obtain ⟨hn, hlt⟩ := hlt
    have hk2 := hg.key_below h1 Nat.two_pos hn
    refine ⟨hn, ?_⟩
    rcases (parent_eq_iff hi0).1 hp with rfl | rfl
    · exact (hk1 ▸ hk2 ▸ hlt).le
    · exact le_rfl
  · rename_i hge
    refine ⟨h1, ?_⟩
    rcases (parent_eq_iff hi0).1 hp with rfl | rfl
    · exact le_rfl
    · have hk2 := hg.key_below h1 Nat.two_pos hi
      refine not_lt.1 fun hlt => hge ⟨hi, ?_⟩
      exact hk1.symm ▸ hk2.symm ▸ hlt

section Sink

variable (hsink : Sinks (h.dropRoot m).1 (h.curSize - 1) (h.dropRoot m).2.array 0 j)
include hsink

theorem Good.sink_slot : 0 < j ∧ j < h.curSize - 1 ∧ parent j = 0 := by
  have h0 := hsink.lt
  have hp : parent j = 0 := by
    rw [parent_eq_iff h0, hsink.1]
    exact (lesserChild_cases _ _ _ _).imp_right And.left
  have hle : j ≤ h.curSize - 1 := by
    rw [hsink.1]
    exact (hg.lesserChild_min h1 Nat.one_pos h1 rfl).1
  refine ⟨h0, lt_of_le_of_ne hle ?_, hp⟩
  rintro rfl
  -- the last slot holds the timer that fills the hole
  have hkey : key (h.dropRoot m).1 (h.dropRoot m).2.array (h.curSize - 1) =
      key (h.dropRoot m).1 (h.dropRoot m).2.array 0 := by
    rw [key, key, dropRoot_last hg.shape h1]
  exact hsink.2.ne hkey

/-- The lesser child of the root expires no later than any timer in the heap. -/
theorem Good.sink_le (hi0 : 0 < i) (hi : i < h.curSize) :
    key m h.array j ≤ key m h.array i := by
  obtain ⟨d, hd0, hd, hp, hle⟩ := hg.ordered.exists_child_le hi0 hi
  rw [hsink.1]
  exact ((hg.lesserChild_min h1 hd0 (by omega) hp).2).trans hle

/-- Nor later than what is left behind the heap. -/
theorem Good.sink_le_readable (hi0 : 0 < i)
    (hi : Readable (h.dropRoot m).1 (h.dropRoot m).2.array i) :
    key (h.dropRoot m).1 (h.dropRoot m).2.array j ≤
      key (h.dropRoot m).1 (h.dropRoot m).2.array i := by
  obtain ⟨hj0, hj, -⟩ := hg.sink_slot h1 hsink
  rw [hg.key_below h1 hj0 hj.le]
  rcases Nat.lt_or_ge (h.curSize - 1) i with hlt | hle
  · obtain ⟨root, -, hroot, -⟩ := hg.shape.exists_root (by omega)
    obtain ⟨q, hq, hlive⟩ := hi
    have hM : (h.dropRoot m).1 = m.erase root := by
      simp only [Heap.dropRoot, hroot, Option.join_some, Option.elim_some]
    have harr : h.array[i]? = some (some q) := by
      rw [← hq]
      exact (List.getElem?_set_ne hi0.ne).symm
    rw [hM] at hlive ⊢
    have hne : q ≠ root := by
      rintro rfl
      simp [Store.Live] at hlive
    rw [Store.live_erase_of_ne hne] at hlive
    have hkey : key (m.erase root) (h.dropRoot m).2.array i = keyOf m (some q) := by
      rw [key_of_getElem? hq, keyOf_erase_of_ne hne]
    rcases hg.tidy q (List.mem_of_getElem? harr) with hslot | hfreed
    · obtain ⟨k, hk, hqk⟩ := mem_slots_iff.1 hslot
      have hk0 : 0 < k := by
        refine Nat.pos_of_ne_zero ?_
        rintro rfl
        exact hne (Option.some.inj (Option.some.inj (hqk.symm.trans hroot)))
      rw [hkey, ← key_of_getElem? hqk]
      exact hg.sink_le h1 hsink hk0 hk
    · exact absurd hlive (hg.dead q hfreed).2.2
  · rw [hg.key_below h1 hi0 hle]
    exact hg.sink_le h1 hsink hi0 (by omega)

theorem Good.not_sinks
    (hread : RoundReads (h.dropRoot m).1 (h.curSize - 1) (h.dropRoot m).2.array j) :
    ¬ Sinks (h.dropRoot m).1 (h.curSize - 1) (h.dropRoot m).2.array j i := by
  rintro ⟨rfl, hlt⟩
  exact not_lt.2 (hg.sink_le_readable h1 hsink (Nat.zero_lt_of_lt lt_lesserChild)
    hread.lesserChild) hlt

end Sink

/-- If `percolate_down` goes well, the heap was clear. -/
theorem Good.clear (hok : ∃ b, percolateDown (h.dropRoot m).1 (h.curSize - 1)
    (h.dropRoot m).2.array 0 = .ok b) : Clear m h := by
  have hreads := (percolateDown_ok_iff_reads hg.shape h1).1 hok
  intro _ i hi
  -- the hole visits the root and, if it sinks, the lesser child of the root
  have hcases : i = 0 ∨ Sinks (h.dropRoot m).1 (h.curSize - 1) (h.dropRoot m).2.array 0 i := by
    induction hi with
    | refl => exact .inl rfl
    | @tail j i hj hij ih =>
      rcases ih with rfl | hs
      · exact .inr hij
      · exact absurd hij (hg.not_sinks h1 hs (hreads j hj))
  rcases hcases with rfl | hs
  · exact .inl h1
  · refine .inr ⟨(hreads i hi).2.1, hg.sink_le_readable h1 hs (Nat.succ_pos _) (hreads i hi).2.1⟩

/-- The keys once the root's lesser child `p` has risen and the last timer is in its slot `c`. -/
theorem Good.key_sunk {c : ℕ} {p tmp : Ptr} (htmp : (h.dropRoot m).2.array[0]? = some tmp)
    (hp : (h.dropRoot m).2.array[c]? = some p) (hc0 : 0 < c) (hcn : c < h.curSize - 1)
    (hi : i < h.curSize - 1) :
    key (h.dropRoot m).1 (((h.dropRoot m).2.array.set 0 p).set c tmp) i =
      Function.update (Function.update (key m h.array) 0 (key m h.array c)) c
        (key m h.array (h.curSize - 1)) i := by
  have hk0 := dropRoot_key hg.shape h1 (Nat.zero_le _)
  rw [Function.update_self] at hk0
  have hlt : 0 < (h.dropRoot m).2.array.length := (List.getElem?_eq_some_iff.1 htmp).1
  have hclen : c < (h.dropRoot m).2.array.length := (List.getElem?_eq_some_iff.1 hp).1
  rw [key_set (by rwa [List.length_set]), key_set hlt, ← key_of_getElem? hp,
    ← key_of_getElem? htmp, hk0, hg.key_below h1 hc0 hcn.le]
  by_cases hic : i = c
  · rw [hic, Function.update_self, Function.update_self]
  · rw [Function.update_of_ne hic, Function.update_of_ne hic]
    rcases Nat.eq_zero_or_pos i with rfl | h0
    · rw [Function.update_self, Function.update_self]
    · rw [Function.update_of_ne h0.ne', Function.update_of_ne h0.ne', hg.key_below h1 h0 hi.le]

/-- After `percolate_down` the heap is ordered iff one level was enough. -/
theorem Good.ordered_iff {b : List Ptr} (hb : percolateDown (h.dropRoot m).1 (h.curSize - 1)
    (h.dropRoot m).2.array 0 = .ok b) :
    Ordered (key (h.dropRoot m).1 b) (h.curSize - 1) ↔ OneLevel m h := by
  have hord : Ordered (key m h.array) (h.curSize - 1) :=
    fun i h0 hi => hg.ordered i h0 (hi.trans_le (Nat.sub_le _ _))
  have hreads := (percolateDown_ok_iff_reads hg.shape h1).1 ⟨b, hb⟩
  have hk0 := dropRoot_key hg.shape h1 (Nat.zero_le _)
  rw [Function.update_self] at hk0
  obtain ⟨tmp, a, last, htmp, hloop, -, rfl⟩ := percolateDown_eq_ok.1 hb
  obtain ⟨-, ⟨hstay, heq⟩ | ⟨p, hp, hsink, hloop⟩⟩ := (percolateLoop_eq_ok h1).1 hloop
  · -- the last timer stays at the root
    obtain ⟨rfl, rfl⟩ := Prod.mk.inj heq
    obtain ⟨hlt, hget⟩ := List.getElem?_eq_some_iff.1 htmp
    refine iff_of_true ?_ fun hsink => absurd hsink hstay
    rw [← hget, List.set_getElem_self]
    refine (ordered_congr fun i hi => dropRoot_key hg.shape h1 hi.le).2 ?_
    refine (ordered_replace_iff hord).2 ?_
    intro i h0 hi hpar
    obtain ⟨hcn, hmin⟩ := hg.lesserChild_min h1 h0 hi.le hpar
    refine le_trans ?_ hmin
    rw [← hk0, ← hg.key_below h1 (Nat.zero_lt_of_lt lt_lesserChild) hcn]
    exact not_lt.1 fun hlt => hstay ⟨rfl, hlt⟩
  · -- the lesser child of the root becomes the root
    obtain ⟨hc0, hcn, hcp⟩ := hg.sink_slot h1 hsink
    have hlt : 0 < (h.dropRoot m).2.array.length := (List.getElem?_eq_some_iff.1 htmp).1
    obtain ⟨k, hk⟩ := Nat.exists_eq_succ_of_ne_zero hlt.ne'
    rw [hk] at hloop
    set c := lesserChild (h.dropRoot m).1 (h.curSize - 1) (h.dropRoot m).2.array 0 with hc
    have hag := (AgreeFrom.refl 0 (h.dropRoot m).2.array).set (p := p) hc0
    have hvisit : Visits m h c := ReflTransGen.single hsink
    -- in the second round the hole's slot is still that of the child
    have hno : ∀ i, ¬ Sinks (h.dropRoot m).1 (h.curSize - 1) ((h.dropRoot m).2.array.set 0 p) c i :=
      fun i hi => hg.not_sinks h1 hsink (hreads c hvisit) (hag.sinks_iff.1 hi)
    obtain ⟨-, ⟨-, heq⟩ | ⟨-, -, hs, -⟩⟩ := (percolateLoop_eq_ok h1).1 hloop
    · obtain ⟨rfl, rfl⟩ := Prod.mk.inj heq
      have hkeys : ∀ i < h.curSize - 1,
          key (h.dropRoot m).1 (((h.dropRoot m).2.array.set 0 p).set c tmp) i =
            Function.update (Function.update (key m h.array) 0 (key m h.array c)) c
              (key m h.array (h.curSize - 1)) i :=
        fun i hi => hg.key_sunk h1 htmp hp hc0 hcn hi
      have hcx : key m h.array c ≤ key m h.array (h.curSize - 1) := by
        rw [← hk0, ← hg.key_below h1 hc0 hcn.le]
        exact hsink.2.le
      rw [ordered_congr hkeys, ordered_sink_iff hord hc0 hcp hcx fun i h0 hi hpar =>
        (hg.lesserChild_min h1 h0 hi.le hpar).2]
      unfold OneLevel
      rw [← hc, hk0]
      refine ⟨fun hall _ i h0 hi hpar => ?_, fun hone i h0 hi hpar => ?_⟩
      · rw [hg.key_below h1 h0 hi.le]
        exact hall i h0 hi hpar
      · rw [← hg.key_below h1 h0 hi.le]
        exact hone hsink i h0 hi hpar
    · exact absurd hs (hno _)

end Pop

theorem Good.pop_clear (hg : Good added m h) (hp : h.pop m = .ok (m', h')) : Clear m h := by
  intro h1
  rw [pop_eq hg.shape (by omega), bind_eq_ok] at hp
  obtain ⟨b, hb, -⟩ := hp
  exact hg.clear h1 ⟨b, hb⟩ h1

/-- An ordered heap is ordered after a pop iff one level is enough. -/
theorem pop_ordered_iff (hg : Good added m h) (hp : h.pop m = .ok (m', h')) :
    Ordered (key m' h'.array) h'.curSize ↔ OneLevel m h := by
  rcases Nat.eq_zero_or_pos (h.curSize - 1) with h1 | h1
  · -- at most one timer was there
    have hempty : h'.curSize = 0 := by
      rcases Nat.eq_zero_or_pos h.curSize with h0 | h0
      · rw [pop_of_empty h0] at hp
        obtain ⟨rfl, rfl⟩ := Prod.mk.inj (Except.ok.inj hp)
        exact h0
      · obtain ⟨root, -, -, -, hsize, -⟩ :=
          hg.shape.of_pop (fun h => absurd h (by omega)) h0 hp
        exact hsize.trans h1
    refine iff_of_true (fun i _ hi => ?_) fun _ i _ hi => ?_
    · omega
    · omega
  · rw [pop_eq hg.shape (by omega), bind_eq_ok] at hp
    obtain ⟨b, hb, heq⟩ := hp
    obtain ⟨rfl, rfl⟩ := Prod.mk.inj (Except.ok.inj heq)
    exact hg.ordered_iff h1 hb

theorem Good.pop (hg : Good added m h) (hone : OneLevel m h) (hp : h.pop m = .ok (m', h')) :
    Good added m' h' :=
  ⟨hg.toKept.pop (hg.pop_clear hp) hp, (pop_ordered_iff hg hp).2 hone⟩

theorem Good.of_store (hg : Good added m h) (hk : Kept added m' h)
    (hkey : ∀ p, some p ∈ h.slots → keyOf m' (some p) = keyOf m (some p)) : Good added m' h := by
  refine ⟨hk, hg.ordered.congr fun i hi => ?_⟩
  obtain ⟨p, hp, -⟩ := hg.shape.readable i hi
  rw [key_of_getElem? hp, key_of_getElem? hp, hkey p (mem_slots_iff.2 ⟨i, hi, hp⟩)]

theorem Good.new (hg : Good added m h) (t : HeapTimer) : Good added (m.alloc t) h :=
  hg.of_store (hg.toKept.new t) fun p hp => by
    have hne : p ≠ m.fresh := (hg.shape.live hp).lt_fresh.ne
    simp only [keyOf, Option.bind_some, Store.get?_alloc_of_ne hne]

theorem Good.delete {p : Ptr} (hg : Good added m h) (hd : deleteTimer m p = .ok m') :
    Good added m' h := by
  refine hg.of_store (hg.toKept.delete hd) fun q _ => ?_
  rcases deleteTimer_eq_ok.1 hd with ⟨-, rfl⟩ | ⟨a, t, -, ha, rfl⟩
  · rfl
  · rcases eq_or_ne q a with rfl | hne
    · simp [keyOf, Store.get?_set_self (Store.live_of_get? ha), ha]
    · simp only [keyOf, Option.bind_some, Store.get?_set_of_ne hne]

theorem Good.add {p : Addr} (hg : Good added m h) (hp : m.Live p) (hnew : p ∉ added)
    (ha : h.addTimer m (some p) = .ok (some h')) : Good (added ++ [p]) m h' := by
  have hslot : some p ∉ h.slots := fun hmem => hnew ((hg.mem_slots p).1 hmem).1
  rcases addTimer_spec hg.shape hp hslot with hnone | ⟨h₁, hsome, -, -, -, hord, -⟩
  · rw [hnone] at ha
    cases ha
  · obtain rfl := Option.some.inj (Except.ok.inj (hsome.symm.trans ha))
    exact ⟨hg.toKept.add hp hnew ha, hord hg.ordered⟩

theorem Good.init {cap : ℤ} (hcap : 1 ≤ cap) (hint : cap ≤ intMax) (hh : timeHeap cap = some h) :
    Good [] Store.empty h := by
  obtain ⟨-, h0⟩ := timeHeap_spec (m := Store.empty) hcap hint hh
  exact ⟨.init hcap hint hh, fun i _ hi => absurd hi (by omega)⟩

theorem good_step {w w' : World} {op : Op} (hs : timeHeapLTS.step w op w')
    (hC : PopsMeet OneLevel w op) (hg : Good w.added w.timers w.heap) :
    Good w'.added w'.timers w'.heap :=
  step_rule (fun t hg => hg.new t) (fun hg hp hnew ha => hg.add hp hnew ha)
    (fun hg hd => hg.delete hd) Good.pop hs hC hg

theorem oneLevel_of_le_four (h4 : h.curSize ≤ 4) : OneLevel m h := by
  intro hsink i h0 hi hp
  have hlt : 0 < parent i := hp ▸ hsink.lt
  unfold parent at hlt
  omega

/-- A pop or tick for whose pops one level is enough by the size of the heap. -/
theorem popsMeet_oneLevel {w : World} {op : Op} (hpop : op = .pop → OneLevel w.timers w.heap)
    (htick : op.isTick → w.heap.curSize ≤ 4) : PopsMeet OneLevel w op := by
  cases op with
  | pop => exact hpop rfl
  | tick cur => exact fun m h hp => oneLevel_of_le_four (hp.curSize_le.trans (htick rfl))
  | new | add | delete => trivial

/-! ### Runs -/

theorem clear_of_oneLevel {cap : ℤ} {w : World} {ops : List Op} (hcap : 1 ≤ cap)
    (hint : cap ≤ intMax) (hh : timeHeap cap = some h)
    (hrun : (timeHeapLTS.guard (PopsMeet OneLevel)).Run (.init h) ops w) :
    (timeHeapLTS.guard (PopsMeet Clear)).Run (.init h) ops w := by
  have hgood := hrun.guard_invariant (I := fun w => Good w.added w.timers w.heap)
    (Good.init hcap hint hh) fun _ _ _ hg hs => good_step hs.1 hs.2 hg
  refine hgood.mono fun u op v _ hs => ?_
  obtain ⟨⟨hstep, hone⟩, hg⟩ := hs
  refine ⟨hstep, (hone.and (popsMeet_ok hstep)).imp (I := Good u.added) ?_ ?_ hg⟩
  · exact fun m h m' h' hg hC hp => hg.pop hC.1 hp
  · rintro m h hg ⟨-, ⟨m', h'⟩, hp⟩
    exact hg.pop_clear hp

/-- What a time heap is there for: it holds the timers added and not yet popped, each once, in heap
order; `top` is a timer of least expire, and this is the one a pop removes. -/
structure Correct (w : World) : Prop where
  nodup : w.heap.slots.Nodup
  timers : ∀ p, p ∈ w.heap.slots ↔ ∃ a, p = some a ∧ a ∈ w.added ∧ a ∉ w.timers.freed
  ordered : Ordered (key w.timers w.heap.array) w.heap.curSize
  top : w.heap.curSize ≠ 0 → ∃ p, w.heap.top = .ok (some p) ∧ some p ∈ w.heap.slots ∧
    ∀ q, some q ∈ w.heap.slots → keyOf w.timers (some p) ≤ keyOf w.timers (some q)
  pop : ∀ m h, w.heap.pop w.timers = .ok (m, h) → ∃ p : Ptr, w.heap.top = .ok p ∧
    m.freed = w.timers.freed ++ p.toList ∧ (p.toList.map some ++ h.slots).Perm w.heap.slots

theorem Good.correct {w : World} (hg : Good w.added w.timers w.heap) : Correct w where
  nodup := hg.shape.nodup
  timers p := by
    constructor
    · intro hp
      obtain ⟨a, rfl, -⟩ := (readable_iff_slots hg.shape.size_le_length).1
        hg.shape.readable p hp
      exact ⟨a, rfl, (hg.mem_slots a).1 hp⟩
    · rintro ⟨a, rfl, ha⟩
      exact (hg.mem_slots a).2 ha
  ordered := hg.ordered
  top h0 := by
    obtain ⟨p, -, hp, -⟩ := hg.shape.exists_root (Nat.pos_of_ne_zero h0)
    have hempty : w.heap.empty = false := decide_eq_false h0
    refine ⟨p, ?_, mem_slots_iff.2 ⟨0, Nat.pos_of_ne_zero h0, hp⟩, fun q hq => ?_⟩
    · rw [Heap.top, hempty, load_eq_ok.2 hp]
      rfl
    · obtain ⟨i, hi, hq⟩ := mem_slots_iff.1 hq
      rw [← key_of_getElem? hp, ← key_of_getElem? hq]
      exact hg.ordered.root_le hi
  pop m h hp := by
    rcases Nat.eq_zero_or_pos w.heap.curSize with h0 | h0
    · rw [pop_of_empty h0] at hp
      obtain ⟨rfl, rfl⟩ := Prod.mk.inj (Except.ok.inj hp)
      refine ⟨none, ?_, by simp, .refl _⟩
      rw [Heap.top, show w.heap.empty = true from decide_eq_true h0]
      rfl
    · obtain ⟨root, hroot, rfl, -, -, hperm, -⟩ := hg.shape.of_pop (hg.pop_clear hp) h0 hp
      refine ⟨some root, ?_, rfl, hperm⟩
      rw [Heap.top, show w.heap.empty = false from decide_eq_false h0.ne', load_eq_ok.2 hroot]
      rfl

theorem run_oneLevel_of_play {s w : World} {ops : List Op}
    (h : LTS.play exec (fun u op => Fresh u op ∧ (op = .pop → OneLevel u.timers u.heap) ∧
      (op.isTick → u.heap.curSize ≤ 4)) s ops = some w) :
    (timeHeapLTS.guard (PopsMeet OneLevel)).Run s ops w := by
  refine (LTS.run_of_play h).mono fun u op v _ hs => ?_
  obtain ⟨hexec, hfresh, hpop, htick⟩ := hs
  exact ⟨⟨hexec, hfresh⟩, popsMeet_oneLevel hpop htick⟩

/-- Seven timers are added, some popped, one cancelled and an eighth added. -/
def eightTimers : List Op :=
  addAll [1, 2, 3, 11, 10, 12, 4] ++
    [.pop, .delete (some 4), .pop, .pop, .new ⟨5, some 0, none⟩, .add (some 7), .pop]

/-- A tick behind `eightTimers` fires the eighth; three timers are left. -/
theorem run_eightTimers : ∃ w, (timeHeapLTS.guard (PopsMeet OneLevel)).Run
    (.init ⟨List.replicate 4 none, 4, 0⟩) (eightTimers ++ [.tick 5]) w ∧ w.heap.curSize = 3 := by
  have hplay : (LTS.play exec (fun u op => Fresh u op ∧
      (op = .pop → OneLevel u.timers u.heap) ∧ (op.isTick → u.heap.curSize ≤ 4))
      (.init ⟨List.replicate 4 none, 4, 0⟩) (eightTimers ++ [.tick 5])).map (·.heap.curSize) =
        some 3 := by decide +kernel
  obtain ⟨w, hw, hsize⟩ := Option.map_eq_some_iff.1 hplay
  exact ⟨w, run_oneLevel_of_play hw, hsize⟩

/-- **A run keeps the heap correct iff one level is enough for each of its pops.** -/
theorem correct_iff_oneLevel {cap : ℤ} {w : World} {ops : List Op} (hcap : 1 ≤ cap)
    (hint : cap ≤ intMax) (hh : timeHeap cap = some h) (hrun : timeHeapLTS.Run (.init h) ops w)
    (hops : ∀ op ∈ ops, ¬ op.isTick) :
    (∀ pre u, pre <+: ops → timeHeapLTS.Run (.init h) pre u → Correct u) ↔
      ∀ pre u, pre ++ [.pop] <+: ops → timeHeapLTS.Run (.init h) pre u →
        OneLevel u.timers u.heap := by
  have hdet : timeHeapLTS.Deterministic := (LTS.ofExec_deterministic exec).guard Fresh
  have hmeet : ∀ u op, op ∈ ops → (op = .pop → OneLevel u.timers u.heap) →
      PopsMeet OneLevel u op := by
    intro u op hop hone
    cases op with
    | pop => exact hone rfl
    | tick cur => exact absurd rfl (hops _ hop)
    | _ => trivial
  rw [hrun.forall_prefix_iff (I := fun u => Good u.added u.timers u.heap)
    (C := fun u op => op = .pop → OneLevel u.timers u.heap) hdet (Good.init hcap hint hh)
    (fun u hg => hg.correct) (fun u op v hop hg hs hC => good_step hs (hmeet u op hop hC) hg)]
  · constructor
    · exact fun hall pre u hpre hu => hall pre _ u hpre hu rfl
    · rintro hall pre op u hpre hu rfl
      exact hall pre u hpre hu
  · rintro u op v - hg hs hcorrect rfl
    obtain ⟨hexec, -⟩ := hs
    have hexec : exec u .pop = .ok v := hexec
    simp only [exec, bind_eq_ok, Prod.exists] at hexec
    obtain ⟨m', h', hp, hexec⟩ := hexec
    obtain rfl := Except.ok.inj hexec
    exact (pop_ordered_iff hg hp).1 hcorrect.ordered

theorem correct_iff_oneLevel_eight :
    ∃ w, timeHeapLTS.Run (.init ⟨List.replicate 4 none, 4, 0⟩) eightTimers w ∧
      ∀ pre u, pre <+: eightTimers →
        timeHeapLTS.Run (.init ⟨List.replicate 4 none, 4, 0⟩) pre u → Correct u := by
  obtain ⟨_, hrun, -⟩ := run_eightTimers
  obtain ⟨w, hrun⟩ := hrun.of_prefix (List.prefix_append eightTimers _)
  have hheap := hrun.mono fun _ _ _ _ hs => hs.1
  refine ⟨w, hheap, (correct_iff_oneLevel (by decide) (by decide) (show timeHeap 4 = _ from rfl)
    hheap (by decide)).2 ?_⟩
  intro pre u hpre hu
  have hmeet : PopsMeet OneLevel u .pop :=
    hrun.guard_of_prefix ((LTS.ofExec_deterministic exec).guard Fresh) hpre hu
  exact hmeet

/-- A heap with the expires 1, 2, 10, 3, 4, 11 and 12: when the root is popped, the timer with
expire 12 is left above the one with expire 3. -/
theorem not_correct_after_pop :
    ¬ ∀ (cap : ℤ) (h : Heap), 1 ≤ cap → cap ≤ intMax → timeHeap cap = some h →
      ∀ ops w, timeHeapLTS.Run (.init h) ops w → (∀ op ∈ ops, ¬ op.isTick) →
        Correct w := by
  intro hall
  have hkeys : (LTS.play exec Fresh (.init ⟨List.replicate 7 none, 7, 0⟩)
      (addAll [1, 2, 10, 3, 4, 11, 12] ++ [.pop])).map (fun w =>
        (w.heap.curSize, key w.timers w.heap.array 1, key w.timers w.heap.array 3)) =
      some (6, 12, 3) := by decide +kernel
  obtain ⟨w, hplay, hw⟩ := Option.map_eq_some_iff.1 hkeys
  obtain ⟨hsize, hkey1, hkey3⟩ : w.heap.curSize = 6 ∧ key w.timers w.heap.array 1 = 12 ∧
      key w.timers w.heap.array 3 = 3 := by simpa using hw
  have hcorrect := hall 7 _ (by decide) (by decide) rfl _ w (LTS.run_of_play hplay) (by decide)
  have hle := hcorrect.ordered 3 (by decide) (by rw [hsize]; decide)
  rw [show parent 3 = 1 from rfl, hkey1, hkey3] at hle
  exact absurd hle (by decide)

end TimeHeap

end LinuxServer
