import LinuxServer.TimeHeap.Runs
import Mathlib.Data.Nat.Log

/-!
# What the heap costs

* `rounds_le_log`: the loops of `add_timer` and `percolate_down` make no more rounds than the heap
  has levels.
* `resizeCounted`, `execCounted`: the calls with a counter that the loop of `resize` counts up for
  each pointer that it copies.
* `countedLTS`: their runs, with all that was copied.

`copied_le`: doubling pays: a run copies less than two pointers for each timer that it adds,
whatever it pops in between.
-/

namespace LinuxServer

namespace TimeHeap

open Memory BinaryHeap

variable {m m' : Store HeapTimer} {h h' h₁ : Heap} {array : List Ptr} {hole n : ℕ}

/-! ### The rounds of the loops -/

/-- The parent is one level up: the loop of `add_timer` needs a round for each level. -/
theorem addLoop_enough {timer : Ptr} {fuel fuel' : ℕ} (hfuel : hole + 1 < 2 ^ (fuel + 1))
    (hfuel' : hole + 1 < 2 ^ (fuel' + 1)) :
    addLoop m timer fuel array hole = addLoop m timer fuel' array hole := by
  induction fuel generalizing fuel' array hole with
  | zero =>
    obtain rfl : hole = 0 := by omega
    cases fuel' <;> rfl
  | succ fuel ih =>
    cases fuel' with
    | zero =>
      obtain rfl : hole = 0 := by omega
      rfl
    | succ fuel' =>
      rw [Nat.pow_succ] at hfuel hfuel'
      have hup : ∀ array', addLoop m timer fuel array' ((hole - 1) >>> 1) =
          addLoop m timer fuel' array' ((hole - 1) >>> 1) := by
        intro array'
        rw [Nat.shiftRight_eq_div_pow, pow_one]
        exact ih (by omega) (by omega)
      simp only [addLoop, hup]

theorem percolateRound_lt {child : ℕ} (hr : percolateRound m n array hole = .ok (some child)) :
    2 * hole + 1 ≤ child ∧ child < array.length := by
  obtain ⟨hreads, heq⟩ := percolateRound_eq_ok.1 hr
  split_ifs at heq
  obtain rfl := Option.some.inj heq
  refine ⟨?_, hreads.lesserChild.lt_length⟩
  rcases lesserChild_cases m n array hole with hchild | ⟨hchild, -⟩ <;> omega

theorem percolateLoop_last (hlen : array.length < (hole + 1) * 2) (fuel fuel' : ℕ) :
    percolateLoop m n (fuel + 1) array hole = percolateLoop m n (fuel' + 1) array hole := by
  rw [percolateLoop, percolateLoop]
  cases hr : percolateRound m n array hole with
  | error e => rfl
  | ok r =>
    cases r with
    | none => rfl
    | some child =>
      have hchild := percolateRound_lt hr
      omega

/-- A child is one level down: the loop of `percolate_down` needs a round for each level of the
array. -/
theorem percolateLoop_enough {fuel fuel' : ℕ} (hfuel : array.length < (hole + 1) * 2 ^ (fuel + 1))
    (hfuel' : array.length < (hole + 1) * 2 ^ (fuel' + 1)) :
    percolateLoop m n (fuel + 1) array hole = percolateLoop m n (fuel' + 1) array hole := by
  induction fuel generalizing fuel' array hole with
  | zero => exact percolateLoop_last hfuel 0 fuel'
  | succ fuel ih =>
    cases fuel' with
    | zero => exact percolateLoop_last hfuel' (fuel + 1) 0
    | succ fuel' =>
      rw [percolateLoop, percolateLoop]
      cases hr : percolateRound m n array hole with
      | error e => rfl
      | ok r =>
        cases r with
        | none => rfl
        | some child =>
          have hchild := (percolateRound_lt hr).1
          have hdown : ∀ k, array.length < (hole + 1) * 2 ^ (k + 1 + 1) →
              array.length < (child + 1) * 2 ^ (k + 1) := by
            intro k hk
            have hmul : (hole + 1) * 2 * 2 ^ (k + 1) ≤ (child + 1) * 2 ^ (k + 1) :=
              Nat.mul_le_mul_right _ (by omega)
            rw [Nat.pow_succ, Nat.mul_comm (2 ^ (k + 1)) 2, ← Nat.mul_assoc] at hk
            omega
          cases hload : load array child with
          | error e => simp only [ok_bind, hload, error_bind]
          | ok q =>
            cases hstore : store array hole q with
            | error e => simp only [ok_bind, hload, hstore, error_bind]
            | ok array' =>
              obtain ⟨-, rfl⟩ := store_eq_ok.1 hstore
              have hrest : percolateLoop m n (fuel + 1) (array.set hole q) child =
                  percolateLoop m n (fuel' + 1) (array.set hole q) child :=
                ih (by rw [List.length_set]; exact hdown fuel hfuel)
                  (by rw [List.length_set]; exact hdown fuel' hfuel')
              simp only [ok_bind, hload, hstore, hrest]

/-- **The heap is as fast as it is deep.**  Whatever is in the array, the loop of `add_timer` from
a slot and that of `percolate_down` do the same when they are cut after as many rounds as there are
levels: they make no more. -/
theorem rounds_le_log (m : Store HeapTimer) (timer : Ptr) (n : ℕ) (array : List Ptr) (hole : ℕ) :
    addLoop m timer (Nat.log 2 (hole + 1)) array hole = addLoop m timer hole array hole ∧
      percolateLoop m n (Nat.log 2 array.length + 1) array hole =
        percolateLoop m n (array.length + 1) array hole := by
  have hlevels : ∀ k, k < 2 ^ (Nat.log 2 k + 1) := Nat.lt_pow_succ_log_self Nat.one_lt_two
  have hwide : ∀ k, k < 2 ^ (k + 1) := fun k => (Nat.lt_succ_self k).trans Nat.lt_two_pow_self
  have hone : ∀ k, k ≤ (hole + 1) * k := fun k => Nat.le_mul_of_pos_left k (Nat.succ_pos hole)
  exact ⟨addLoop_enough (hlevels _) Nat.lt_two_pow_self,
    percolateLoop_enough ((hlevels _).trans_le (hone _)) ((hwide _).trans_le (hone _))⟩

/-! ### The pointers copied -/

/-- The loop of `resize`, which counts the pointers that it copies. -/
def Heap.copyLoop (h : Heap) (tmp : List Ptr) (copied : ℕ) : Except Fault (List Ptr × ℕ) :=
  (List.range h.curSize).foldlM
    (fun u i => do
      let tmp ← store u.1 i (← load h.array i)
      pure (tmp, u.2 + 1)) (tmp, copied)

/-- `resize`, with the counter. -/
def Heap.resizeCounted (h : Heap) (copied : ℕ) : Except Fault (Option Heap × ℕ) :=
  match newArray (doubled h.capacity) with
  | none => pure (none, copied)
  | some tmp => do
    let (array, copied) ← h.copyLoop tmp copied
    pure (some { h with array, capacity := (doubled h.capacity).toNat }, copied)

/-- The beginning of `add_timer`, with the counter. -/
def Heap.growCounted (h : Heap) (copied : ℕ) : Except Fault (Option Heap × ℕ) :=
  if h.curSize ≥ h.capacity then h.resizeCounted copied else pure (some h, copied)

/-- `add_timer`, with the counter. -/
def Heap.addTimerCounted (m : Store HeapTimer) (h : Heap) (copied : ℕ) :
    Ptr → Except Fault (Option Heap × ℕ)
  | none => pure (some h, copied)
  | some p => do
    match ← h.growCounted copied with
    | (none, copied) => pure (none, copied)
    | (some h, copied) => do
      let (array, hole) ← addLoop m (some p) h.curSize h.array h.curSize
      let array ← store array hole (some p)
      pure (some { h with array, curSize := h.curSize + 1 }, copied)

/-- One call, with the counter; `resize` is called by `add_timer` only. -/
def execCounted (u : World × ℕ) : Op → Except Fault (World × ℕ)
  | .add timer => do
    match ← u.1.heap.addTimerCounted u.1.timers u.2 timer with
    | (none, copied) => pure (u.1, copied)
    | (some heap, copied) =>
      pure ({ u.1 with heap, added := u.1.added ++ timer.toList }, copied)
  | op => do pure (← exec u.1 op, u.2)

/-- The runs of a heap with all the pointers that they have copied. -/
def countedLTS : LTS (World × ℕ) Op := (LTS.ofExec execCounted).guard fun u op => Fresh u.1 op

theorem foldlM_counted {σ ε : Type*} (f : σ → ℕ → Except ε σ) (is : List ℕ) (s : σ) (c : ℕ) :
    is.foldlM (fun u i => do let s ← f u.1 i; pure (s, u.2 + 1)) (s, c) =
      (is.foldlM f s).map fun s => (s, c + is.length) := by
  induction is generalizing s c with
  | nil => rfl
  | cons i is ih =>
    rw [List.foldlM_cons, List.foldlM_cons]
    cases hf : f s i with
    | error e => rfl
    | ok s' =>
      have hrest := ih s' (c + 1)
      rw [List.length_cons, Nat.add_comm is.length, ← Nat.add_assoc]
      exact hrest

theorem copyLoop_eq (h : Heap) (tmp : List Ptr) (c : ℕ) :
    h.copyLoop tmp c = ((List.range h.curSize).foldlM
      (fun tmp i => do store tmp i (← load h.array i)) tmp).map fun tmp => (tmp, c + h.curSize) := by
  have hcounted := foldlM_counted (fun tmp i => do store tmp i (← load h.array i))
    (List.range h.curSize) tmp c
  simp only [bind_assoc, List.length_range] at hcounted
  exact hcounted

/-- What `resize` copies: the timers in the heap, unless `new` throws. -/
def Heap.copies (h : Heap) : ℕ :=
  if h.curSize ≥ h.capacity ∧ 0 ≤ doubled h.capacity then h.curSize else 0

theorem growCounted_eq (h : Heap) (c : ℕ) :
    h.growCounted c = h.grow.map fun r => (r, c + h.copies) := by
  rw [Heap.growCounted, Heap.grow, Heap.copies]
  split_ifs with hfull hcopies
  · rw [Heap.resizeCounted, Heap.resize, newArray, if_pos hcopies.2]
    dsimp only
    rw [copyLoop_eq]
    cases (List.range h.curSize).foldlM (fun tmp i => do store tmp i (← load h.array i))
      (List.replicate (doubled h.capacity).toNat none) <;> rfl
  · rw [Heap.resizeCounted, Heap.resize, newArray, if_neg fun hd => hcopies ⟨hfull, hd⟩]
    rfl
  · exact absurd ‹_ ∧ _›.1 hfull
  · rfl

theorem addTimerCounted_eq (m : Store HeapTimer) (h : Heap) (c : ℕ) (p : Addr) :
    h.addTimerCounted m c (some p) =
      (h.addTimer m (some p)).map fun r => (r, c + h.copies) := by
  rw [Heap.addTimerCounted, Heap.addTimer, growCounted_eq]
  cases h.grow with
  | error e => rfl
  | ok r =>
    cases r with
    | none => rfl
    | some h₁ =>
      simp only [Except.map, ok_bind]
      cases addLoop m (some p) h₁.curSize h₁.array h₁.curSize with
      | error e => rfl
      | ok r =>
        simp only [ok_bind]
        cases store r.1 r.2 (some p) <;> rfl

/-- The pointers that the call copies. -/
def copies (w : World) : Op → ℕ
  | .add (some _) => w.heap.copies
  | _ => 0

/-- The counter changes nothing but itself. -/
theorem execCounted_eq (w : World) (c : ℕ) (op : Op) :
    execCounted (w, c) op = (exec w op).map fun w' => (w', c + copies w op) := by
  cases op with
  | add timer =>
    cases timer with
    | none => rfl
    | some p =>
      rw [execCounted, exec]
      dsimp only
      rw [addTimerCounted_eq]
      cases w.heap.addTimer w.timers (some p) with
      | error e => rfl
      | ok r => cases r <;> rfl
  | new | delete | pop | tick => rfl

theorem countedLTS_step_iff {w w' : World} {c c' : ℕ} {op : Op} :
    countedLTS.step (w, c) op (w', c') ↔ timeHeapLTS.step w op w' ∧ c' = c + copies w op := by
  have hexec : execCounted (w, c) op = .ok (w', c') ↔ exec w op = .ok w' ∧ c' = c + copies w op := by
    rw [execCounted_eq]
    cases exec w op with
    | error e => simp [Except.map]
    | ok w₁ => simp [Except.map, eq_comm]
  show execCounted (w, c) op = .ok (w', c') ∧ Fresh w op ↔ (exec w op = .ok w' ∧ Fresh w op) ∧ _
  rw [hexec]
  exact and_right_comm

/-- The heap has room for its timers, and for at most twice the timers added. -/
structure Roomy (cap : ℕ) (added : List Addr) (h : Heap) : Prop where
  size_le : h.curSize ≤ added.length
  room : h.curSize ≤ h.capacity
  pos : 1 ≤ h.capacity
  le_intMax : h.capacity ≤ intMax
  capacity_le : h.capacity ≤ max cap (2 * added.length)

theorem grow_cases (hg : h.grow = .ok (some h₁)) (hroom : h.curSize ≤ h.capacity)
    (hmax : h.capacity ≤ intMax) : h₁.curSize = h.curSize ∧
      (h.curSize < h.capacity ∧ h₁.capacity = h.capacity ∨
        h.curSize = h.capacity ∧ h₁.capacity = 2 * h.capacity ∧ 2 * h.capacity ≤ intMax) := by
  unfold Heap.grow at hg
  split_ifs at hg with hfull
  · unfold Heap.resize at hg
    by_cases hc : 2 * h.capacity ≤ intMax
    · rw [doubled_of_le hc, newArray_of_nonneg] at hg
      obtain ⟨array, -, hg⟩ := bind_eq_ok.1 hg
      obtain rfl := Option.some.inj (Except.ok.inj hg)
      exact ⟨rfl, .inr ⟨hroom.antisymm hfull, Int.toNat_natCast _, hc⟩⟩
    · rw [newArray, if_neg (not_le.2 (doubled_neg hmax hc))] at hg
      cases hg
  · obtain rfl := Option.some.inj (Except.ok.inj hg)
    exact ⟨rfl, .inl ⟨not_le.1 hfull, rfl⟩⟩

theorem addTimer_sizes {p : Addr} (ha : h.addTimer m (some p) = .ok (some h')) :
    ∃ h₁, h.grow = .ok (some h₁) ∧ h'.capacity = h₁.capacity ∧ h'.curSize = h₁.curSize + 1 := by
  unfold Heap.addTimer at ha
  obtain ⟨grown, hgrow, ha⟩ := bind_eq_ok.1 ha
  cases grown with
  | none => cases ha
  | some h₁ =>
    obtain ⟨⟨array, hole⟩, -, ha⟩ := bind_eq_ok.1 ha
    obtain ⟨array', -, ha⟩ := bind_eq_ok.1 ha
    obtain rfl := Option.some.inj (Except.ok.inj ha)
    exact ⟨h₁, hgrow, rfl, rfl⟩

theorem grow_of_throw {p : Addr} (ha : h.addTimer m (some p) = .ok none) :
    doubled h.capacity < 0 := by
  unfold Heap.addTimer at ha
  obtain ⟨grown, hgrow, ha⟩ := bind_eq_ok.1 ha
  cases grown with
  | none =>
    unfold Heap.grow at hgrow
    split_ifs at hgrow with hfull
    · rw [Heap.resize, newArray] at hgrow
      by_contra hpos
      rw [if_pos (not_lt.1 hpos)] at hgrow
      obtain ⟨array, -, hgrow⟩ := bind_eq_ok.1 hgrow
      cases hgrow
    · cases hgrow
  | some h₁ =>
    obtain ⟨⟨array, hole⟩, -, ha⟩ := bind_eq_ok.1 ha
    obtain ⟨array', -, ha⟩ := bind_eq_ok.1 ha
    cases ha

theorem pop_sizes (hp : h.pop m = .ok (m', h')) :
    h'.curSize ≤ h.curSize ∧ h'.capacity = h.capacity := by
  unfold Heap.pop at hp
  split_ifs at hp with hempty
  · obtain ⟨-, rfl⟩ := Prod.mk.inj (Except.ok.inj hp)
    exact ⟨le_rfl, rfl⟩
  · obtain ⟨root, -, hp⟩ := bind_eq_ok.1 hp
    split_ifs at hp with hroot
    · obtain ⟨-, rfl⟩ := Prod.mk.inj (Except.ok.inj hp)
      exact ⟨le_rfl, rfl⟩
    · simp only [bind_eq_ok, pure_eq_ok, Except.ok.injEq, Prod.mk.injEq] at hp
      obtain ⟨_, -, _, -, _, -, _, -, -, rfl⟩ := hp
      exact ⟨Nat.sub_le _ 1, rfl⟩

theorem Roomy.add {cap : ℕ} {added : List Addr} {p : Addr} (hr : Roomy cap added h)
    (ha : h.addTimer m (some p) = .ok (some h')) : Roomy cap (added ++ [p]) h' := by
  obtain ⟨h₁, hgrow, hcap, hsize⟩ := addTimer_sizes ha
  obtain ⟨hsame, hcases⟩ := grow_cases hgrow hr.room hr.le_intMax
  have hlen : (added ++ [p]).length = added.length + 1 := by simp
  have hle := hr.size_le
  have hpos := hr.pos
  have hmax := hr.capacity_le
  rcases hcases with ⟨hlt, hcap'⟩ | ⟨hfull, hcap', hint⟩
  · exact ⟨by omega, by omega, by omega, by rw [hcap, hcap']; exact hr.le_intMax, by omega⟩
  · exact ⟨by omega, by omega, by omega, by omega, by omega⟩

theorem Roomy.pop {cap : ℕ} {added : List Addr} (hr : Roomy cap added h)
    (hp : h.pop m = .ok (m', h')) : Roomy cap added h' := by
  obtain ⟨hsize, hcap⟩ := pop_sizes hp
  refine ⟨hsize.trans hr.size_le, ?_, ?_, ?_, ?_⟩
  · rw [hcap]
    exact hsize.trans hr.room
  · rw [hcap]
    exact hr.pos
  · rw [hcap]
    exact hr.le_intMax
  · rw [hcap]
    exact hr.capacity_le

theorem Roomy.step {cap : ℕ} {w w' : World} {op : Op} (hr : Roomy cap w.added w.heap)
    (hs : timeHeapLTS.step w op w') : Roomy cap w'.added w'.heap :=
  step_rule (I := fun added _ h => Roomy cap added h) (C := fun _ _ => True) (fun _ hI => hI)
    (fun hI _ _ ha => hI.add ha) (fun hI _ => hI) (fun hI _ hp => hI.pop hp) hs
    (by cases op <;> simp [PopsMeet]) hr

/-- What is copied is what the capacity grows by. -/
theorem capacity_step {cap : ℕ} {w w' : World} {op : Op} (hr : Roomy cap w.added w.heap)
    (hs : timeHeapLTS.step w op w') :
    w'.heap.capacity = w.heap.capacity + copies w op := by
  have hexec : exec w op = .ok w' := hs.1
  cases op with
  | new t =>
    obtain rfl := Except.ok.inj hexec
    rfl
  | add p =>
    cases p with
    | none =>
      obtain rfl := Except.ok.inj hexec
      rfl
    | some p =>
      obtain ⟨added, ha, hexec⟩ := bind_eq_ok.1 hexec
      cases added with
      | none =>
        obtain rfl := Except.ok.inj hexec
        have hthrows := grow_of_throw ha
        rw [copies, Heap.copies, if_neg fun h => absurd h.2 (not_le.2 hthrows)]
        rfl
      | some h =>
        obtain rfl := Except.ok.inj hexec
        obtain ⟨h₁, hgrow, hcap, -⟩ := addTimer_sizes ha
        show h.capacity = _
        obtain ⟨-, ⟨hlt, hcap'⟩ | ⟨hfull, hcap', hint⟩⟩ := grow_cases hgrow hr.room hr.le_intMax
        · rw [copies, Heap.copies, if_neg fun h => absurd h.1 (not_le.2 hlt), hcap, hcap']
          rfl
        · have hdoubled : 0 ≤ doubled w.heap.capacity := by
            rw [doubled_of_le hint]
            exact Int.natCast_nonneg _
          rw [copies, Heap.copies, if_pos ⟨hfull.ge, hdoubled⟩, hcap, hcap', hfull]
          omega
  | delete p =>
    obtain ⟨m, -, hexec⟩ := bind_eq_ok.1 hexec
    obtain rfl := Except.ok.inj hexec
    rfl
  | pop =>
    obtain ⟨⟨m, h⟩, hp, hexec⟩ := bind_eq_ok.1 hexec
    obtain rfl := Except.ok.inj hexec
    exact (pop_sizes hp).2
  | tick cur =>
    obtain ⟨⟨m, h, calls⟩, ht, hexec⟩ := bind_eq_ok.1 hexec
    obtain rfl := Except.ok.inj hexec
    have hkeep : h.capacity = w.heap.capacity :=
      (ticks_of_tick ht).rule (I := fun _ h => h.capacity = w.heap.capacity) (C := fun _ _ => True)
        (fun _ _ _ _ hI _ hp => (pop_sizes hp).2.trans hI) rfl fun _ _ _ => trivial
    exact hkeep

/-- **Doubling pays.**  In every run, whatever it pops, deletes and ticks in between, the pointers
that all calls of `resize` together have copied are those by which the capacity has grown, and it
does not grow beyond twice the timers added. -/
theorem copied_le {cap : ℤ} (hcap : 1 ≤ cap) (hint : cap ≤ intMax) (hh : timeHeap cap = some h)
    {ops : List Op} {w : World} {c : ℕ} (hrun : countedLTS.Run (.init h, 0) ops (w, c)) :
    cap.toNat + c = w.heap.capacity ∧
      w.heap.capacity ≤ max cap.toNat (2 * w.added.length) := by
  have hinit : Roomy cap.toNat [] h ∧ cap.toNat + 0 = h.capacity := by
    obtain ⟨hs, h0⟩ := timeHeap_spec (m := Store.empty) hcap hint hh
    obtain ⟨array, -, rfl⟩ := Option.map_eq_some_iff.1 hh
    exact ⟨⟨h0.le, Nat.zero_le _, hs.capacity_pos, hs.capacity_le, Nat.le_max_left _ _⟩, rfl⟩
  have hkeep := hrun.invariant (I := fun v => Roomy cap.toNat v.1.added v.1.heap ∧
    cap.toNat + v.2 = v.1.heap.capacity) hinit ?_
  · exact ⟨hkeep.2, hkeep.1.capacity_le⟩
  · rintro ⟨v, c⟩ op ⟨v', c'⟩ ⟨hr, hc⟩ hstep
    obtain ⟨hs, rfl⟩ := countedLTS_step_iff.1 hstep
    refine ⟨hr.step hs, ?_⟩
    rw [capacity_step hr hs, ← hc, Nat.add_assoc]

theorem exists_counted {w w' : World} {ops : List Op} (c : ℕ) (hrun : timeHeapLTS.Run w ops w') :
    ∃ c', countedLTS.Run (w, c) ops (w', c') := by
  induction hrun with
  | nil => exact ⟨c, .nil⟩
  | @snoc _ op u _ _ hs ih =>
    obtain ⟨c', hc⟩ := ih
    exact ⟨c' + copies u op, hc.snoc (countedLTS_step_iff.2 ⟨hs, rfl⟩)⟩

/-- Three timers, and room for one at first. -/
theorem copied_le_three : ∃ w, countedLTS.Run (.init ⟨[none], 1, 0⟩, 0) (addAll [3, 1, 2]) (w, 3) ∧
    w.heap.capacity ≤ 6 := by
  have hrun : timeHeapLTS.Run (.init ⟨[none], 1, 0⟩) (addAll [3, 1, 2]) _ := LTS.run_of_play rfl
  obtain ⟨c, hc⟩ := exists_counted 0 hrun
  obtain ⟨hcount, hle⟩ := copied_le (by decide) (by decide) (rfl : timeHeap 1 = _) hc
  obtain rfl : c = 3 := Nat.add_left_cancel hcount
  exact ⟨_, hc, hle⟩

end TimeHeap

end LinuxServer
