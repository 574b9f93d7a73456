import LinuxServer.Memory.Store
import Mathlib.Data.List.Induction
import Mathlib.Data.List.Nodup
import Mathlib.Data.List.Perm.Subperm

/-!
# Doubly linked lists in a store

* `Node ν κ`: the objects of class `ν` are a content `κ` with a link to the object before and one
  to the object after.
* `Chain m p L n`: the objects `L`, given by their addresses and contents, are linked both ways,
  behind `p` and before `n`.
* `relinkFirst`, `relinkLast`: the link at one end of a chain is set.

A list with the first object at `head` is `Chain m none L none` with `head = first L none`.  Its
addresses differ (`Chain.nodup`).  A chain is cut and joined by `chain_append` and `Chain.join`.
-/

namespace LinuxServer

namespace Memory

/-- The class `ν` of objects with a content and two links. -/
class Node (ν : Type*) (κ : outParam (Type*)) where
  /-- The object with a content, the link to the object before and the link to the one after. -/
  node : κ → Ptr → Ptr → ν
  prev : ν → Ptr
  prev_node : ∀ c p n, prev (node c p n) = p

variable {ν κ : Type*} {a : Addr} {c : κ} {p n q : Ptr} {L D S : List (Addr × κ)}

/-- Where the link to the chain `L` points, before `n`. -/
def first (L : List (Addr × κ)) (n : Ptr) : Ptr :=
  match L with
  | [] => n
  | e :: _ => some e.1

/-- Where the link back to the chain `L` points, behind `p`. -/
def last (p : Ptr) : List (Addr × κ) → Ptr
  | [] => p
  | e :: L => last (some e.1) L

/-- The addresses of a chain. -/
def addrs (L : List (Addr × κ)) : List Addr := L.map Prod.fst

@[simp] theorem first_nil : first ([] : List (Addr × κ)) n = n := rfl

@[simp] theorem first_cons : first ((a, c) :: L) n = some a := rfl

@[simp] theorem first_append : first (D ++ S) n = first D (first S n) := by cases D <;> rfl

@[simp] theorem last_nil : last p ([] : List (Addr × κ)) = p := rfl

@[simp] theorem last_cons : last p ((a, c) :: L) = last (some a) L := rfl

@[simp] theorem last_append : last p (D ++ S) = last (last p D) S := by
  induction D generalizing p with
  | nil => rfl
  | cons e D ih => exact ih

@[simp] theorem addrs_nil : addrs ([] : List (Addr × κ)) = [] := rfl

@[simp] theorem addrs_cons : addrs ((a, c) :: L) = a :: addrs L := rfl

@[simp] theorem addrs_append : addrs (D ++ S) = addrs D ++ addrs S := List.map_append

theorem mem_addrs_of_mem {e : Addr × κ} (h : e ∈ L) : e.1 ∈ addrs L := List.mem_map_of_mem h

theorem mem_addrs : a ∈ addrs L ↔ ∃ c, (a, c) ∈ L := by simp [addrs]

theorem exists_last (a : Addr) (L : List (Addr × κ)) :
    ∃ b ∈ a :: addrs L, last (some a) L = some b := by
  induction L generalizing a with
  | nil => exact ⟨a, List.mem_cons_self, rfl⟩
  | cons e L ih =>
    obtain ⟨b, hb, hlast⟩ := ih e.1
    exact ⟨b, List.mem_cons_of_mem _ hb, hlast⟩

theorem mem_of_last (h : last none L = some a) : a ∈ addrs L := by
  rcases L with _ | ⟨e, L⟩
  · cases h
  · obtain ⟨b, hb, hlast⟩ := exists_last e.1 L
    obtain rfl := Option.some.inj (hlast.symm.trans h)
    exact hb

variable [Node ν κ] {m m' : Store ν} {v : ν}

open Node

/-- The objects `L` are linked both ways, behind `p` and before `n`. -/
def Chain (m : Store ν) : Ptr → List (Addr × κ) → Ptr → Prop
  | _, [], _ => True
  | p, (a, c) :: L, n => m.get? a = some (node c p (first L n)) ∧ Chain m (some a) L n

@[simp] theorem chain_nil : Chain m p [] n := trivial

@[simp] theorem chain_cons :
    Chain m p ((a, c) :: L) n ↔ m.get? a = some (node c p (first L n)) ∧ Chain m (some a) L n :=
  Iff.rfl

theorem chain_append : Chain m p (D ++ S) n ↔ Chain m p D (first S n) ∧ Chain m (last p D) S n := by
  induction D generalizing p with
  | nil => simp
  | cons e D ih =>
    obtain ⟨a, c⟩ := e
    simp only [List.cons_append, chain_cons, first_append, last_cons, ih, and_assoc]

theorem chain_mid : Chain m p (D ++ (a, c) :: S) n ↔
    Chain m p D (some a) ∧ m.get? a = some (node c (last p D) (first S n)) ∧
      Chain m (some a) S n := by
  rw [chain_append, first_cons, chain_cons]

theorem Chain.live (h : Chain m p L n) (ha : a ∈ addrs L) : m.Live a := by
  obtain ⟨c, hc⟩ := mem_addrs.1 ha
  obtain ⟨D, S, rfl⟩ := List.append_of_mem hc
  exact Store.live_of_get? (chain_mid.1 h).2.1

theorem Chain.congr (h : Chain m p L n) (hm : ∀ a ∈ addrs L, m'.get? a = m.get? a) :
    Chain m' p L n := by
  induction L generalizing p with
  | nil => trivial
  | cons e L ih =>
    obtain ⟨a, c⟩ := e
    exact ⟨(hm a List.mem_cons_self).trans h.1,
      ih h.2 fun b hb => hm b (List.mem_cons_of_mem _ hb)⟩

theorem Chain.set (h : Chain m p L n) (ha : a ∉ addrs L) : Chain (m.set a v) p L n :=
  h.congr fun _ hb => Store.get?_set_of_ne (ne_of_mem_of_not_mem hb ha)

theorem Chain.erase (h : Chain m p L n) (ha : a ∉ addrs L) : Chain (m.erase a) p L n :=
  h.congr fun _ hb => Store.get?_erase_of_ne (ne_of_mem_of_not_mem hb ha)

theorem Chain.alloc (h : Chain m p L n) : Chain (m.alloc v) p L n :=
  h.congr fun _ hb => Store.get?_alloc_of_ne (h.live hb).lt_fresh.ne

theorem Chain.read (h : Chain m p (D ++ (a, c) :: S) n) :
    m.read (some a) = .ok (node c (last p D) (first S n)) :=
  Store.read_eq_ok.2 ⟨a, rfl, (chain_mid.1 h).2.1⟩

/-- Behind the null pointer no object comes twice: the one after an object is told by its link
back, and the first object has none. -/
theorem Chain.nodup (h : Chain m none L n) : (addrs L).Nodup := by
  induction L using List.reverseRecOn generalizing n with
  | nil => exact List.nodup_nil
  | append_singleton L e ih =>
    obtain ⟨a, c⟩ := e
    obtain ⟨hL, ha, -⟩ := chain_mid.1 h
    have hnodup := ih hL
    rw [addrs_append, List.nodup_append_comm]
    refine List.nodup_cons.2 ⟨fun hmem => ?_, hnodup⟩
    -- an earlier place of `a` has the same link back, so that the timer before `a` comes twice
    obtain ⟨c', hc'⟩ := mem_addrs.1 hmem
    obtain ⟨D, S, rfl⟩ := List.append_of_mem hc'
    have hprev : last none D = last none (D ++ (a, c') :: S) := by
      have he := Option.some.inj ((chain_mid.1 hL).2.1.symm.trans ha)
      have hp := congrArg prev he
      rwa [prev_node, prev_node] at hp
    obtain ⟨b, hb, hlast⟩ := exists_last a S
    rw [last_append, last_cons, hlast] at hprev
    rw [addrs_append, addrs_cons] at hnodup
    exact List.disjoint_of_nodup_append hnodup (mem_of_last hprev) hb

theorem Chain.unique (hnode : ∀ c c' p n n', (node c p n : ν) = node c' p n' → c = c' ∧ n = n')
    (h : Chain m p L none) (h' : Chain m p D none) (hfirst : first L none = first D none) :
    L = D := by
  induction L generalizing p D with
  | nil =>
    cases D with
    | nil => rfl
    | cons => cases hfirst
  | cons e L ih =>
    rcases D with _ | ⟨⟨b, d⟩, D⟩
    · cases hfirst
    · obtain ⟨a, c⟩ := e
      obtain rfl : a = b := Option.some.inj hfirst
      obtain ⟨rfl, hnext⟩ := hnode _ _ _ _ _ (Option.some.inj (h.1.symm.trans h'.1))
      rw [ih h.2 h'.2 hnext]

/-- An object of a list and the two parts of it around. -/
theorem Chain.notMem (h : Chain m none (D ++ (a, c) :: S) n) :
    a ∉ addrs D ∧ a ∉ addrs S ∧ (addrs (D ++ S)).Nodup := by
  have hnodup := h.nodup
  rw [addrs_append, addrs_cons, List.nodup_middle, List.nodup_cons, List.mem_append,
    not_or] at hnodup
  rw [addrs_append]
  exact ⟨hnodup.1.1, hnodup.1.2, hnodup.2⟩

theorem Chain.length_le (h : Chain m none L n) : L.length ≤ m.fresh := by
  have hsub : addrs L ⊆ List.range m.fresh :=
    fun a ha => List.mem_range.2 (h.live ha).lt_fresh
  have hle := (List.subperm_of_subset h.nodup hsub).length_le
  rwa [addrs, List.length_map, List.length_range] at hle

/-! ### Setting links and contents -/

/-- The object behind which a chain goes on gets the link back `q`. -/
def relinkFirst (m : Store ν) (L : List (Addr × κ)) (n q : Ptr) : Store ν :=
  match L with
  | [] => m
  | (a, c) :: L => m.set a (node c q (first L n))

/-- The last object of a chain gets the link `q` to the object after. -/
def relinkLast (m : Store ν) : Ptr → List (Addr × κ) → Ptr → Store ν
  | _, [], _ => m
  | p, [(a, c)], q => m.set a (node c p q)
  | _, (a, _) :: e :: L, q => relinkLast m (some a) (e :: L) q

theorem relinkLast_concat : relinkLast m p (D ++ [(a, c)]) q = m.set a (node c (last p D) q) := by
  induction D generalizing p with
  | nil => rfl
  | cons e D ih =>
    rcases D with _ | ⟨e', D⟩
    · rfl
    · exact ih

theorem get?_relinkFirst (ha : a ∉ addrs L) : (relinkFirst m L n q).get? a = m.get? a := by
  rcases L with _ | ⟨⟨b, c⟩, L⟩
  · rfl
  · exact Store.get?_set_of_ne fun h => ha (h ▸ List.mem_cons_self)

theorem get?_relinkLast (ha : a ∉ addrs L) : (relinkLast m p L q).get? a = m.get? a := by
  rcases List.eq_nil_or_concat L with rfl | ⟨D, ⟨b, c⟩, rfl⟩
  · rfl
  · rw [List.concat_eq_append] at ha ⊢
    rw [relinkLast_concat]
    exact Store.get?_set_of_ne fun h => ha (by simp [h])

@[simp] theorem fresh_relinkFirst : (relinkFirst m L n q).fresh = m.fresh := by
  cases L with
  | nil => rfl
  | cons => exact Store.fresh_set

@[simp] theorem freed_relinkFirst : (relinkFirst m L n q).freed = m.freed := by cases L <;> rfl

@[simp] theorem fresh_relinkLast : (relinkLast m p L q).fresh = m.fresh := by
  rcases List.eq_nil_or_concat L with rfl | ⟨D, ⟨b, c⟩, rfl⟩
  · rfl
  · rw [List.concat_eq_append, relinkLast_concat, Store.fresh_set]

@[simp] theorem freed_relinkLast : (relinkLast m p L q).freed = m.freed := by
  rcases List.eq_nil_or_concat L with rfl | ⟨D, ⟨b, c⟩, rfl⟩
  · rfl
  · rw [List.concat_eq_append, relinkLast_concat, Store.freed_set]

theorem Chain.modify_first {f : ν → ν} (h : Chain m p L n) (hL : L ≠ [])
    (hf : ∀ c p n, f (node c p n) = node c q n) :
    m.modify (first L n) f = .ok (relinkFirst m L n q) := by
  rcases L with _ | ⟨⟨a, c⟩, L⟩
  · exact absurd rfl hL
  · exact Store.modify_eq_ok.2 ⟨a, _, rfl, h.1, by rw [hf]; rfl⟩

theorem Chain.modify_last {f : ν → ν} (h : Chain m p L n) (hL : L ≠ [])
    (hf : ∀ c p n, f (node c p n) = node c p q) :
    m.modify (last p L) f = .ok (relinkLast m p L q) := by
  obtain ⟨D, ⟨a, c⟩, rfl⟩ := (List.eq_nil_or_concat L).resolve_left hL
  rw [List.concat_eq_append] at h ⊢
  rw [relinkLast_concat, last_append]
  exact Store.modify_eq_ok.2 ⟨a, _, rfl, (chain_mid.1 h).2.1, by rw [hf]⟩

theorem Chain.relinkFirst (h : Chain m p L n) (hnodup : (addrs L).Nodup) :
    Chain (relinkFirst m L n q) q L n := by
  rcases L with _ | ⟨⟨a, c⟩, L⟩
  · trivial
  · exact ⟨Store.get?_set_self (Store.live_of_get? h.1), h.2.set (List.nodup_cons.1 hnodup).1⟩

theorem Chain.relinkLast (h : Chain m p L n) (hnodup : (addrs L).Nodup) :
    Chain (relinkLast m p L q) p L q := by
  rcases List.eq_nil_or_concat L with rfl | ⟨D, ⟨a, c⟩, rfl⟩
  · trivial
  · rw [List.concat_eq_append] at h hnodup ⊢
    rw [relinkLast_concat]
    obtain ⟨hD, ha, -⟩ := chain_mid.1 h
    have hnew : a ∉ addrs D := by
      intro hmem
      rw [addrs_append] at hnodup
      exact List.disjoint_of_nodup_append hnodup hmem List.mem_cons_self
    exact chain_mid.2 ⟨hD.set hnew, Store.get?_set_self (Store.live_of_get? ha), trivial⟩

/-- The end of one chain may be relinked without another one. -/
theorem Chain.relinkFirst_other {r : Ptr} (h : Chain m p S n)
    (hdisj : (addrs L).Disjoint (addrs S)) : Chain (Memory.relinkFirst m L r q) p S n :=
  h.congr fun _ ha => get?_relinkFirst fun hL => hdisj hL ha

theorem Chain.relinkLast_other {r : Ptr} (h : Chain m p S n)
    (hdisj : (addrs L).Disjoint (addrs S)) : Chain (Memory.relinkLast m r L q) p S n :=
  h.congr fun _ ha => get?_relinkLast fun hL => hdisj hL ha

/-- Two chains are joined by setting the links of the ends that meet. -/
theorem Chain.join {p' n' : Ptr} (hD : Chain m p D n') (hS : Chain m p' S n)
    (hnodup : (addrs (D ++ S)).Nodup) :
    Chain (Memory.relinkFirst (Memory.relinkLast m p D (first S n)) S n (last p D)) p (D ++ S) n := by
  rw [addrs_append, List.nodup_append'] at hnodup
  obtain ⟨hnD, hnS, hdisj⟩ := hnodup
  exact chain_append.2 ⟨(hD.relinkLast hnD).relinkFirst_other fun _ haS haD => hdisj haD haS,
    (hS.relinkLast_other hdisj).relinkFirst hnS⟩

theorem Chain.set_content {c' : κ} (h : Chain m p (D ++ (a, c) :: S) n)
    (hnodup : (addrs (D ++ (a, c) :: S)).Nodup) :
    Chain (m.set a (node c' (last p D) (first S n))) p (D ++ (a, c') :: S) n := by
  obtain ⟨hD, ha, hS⟩ := chain_mid.1 h
  rw [addrs_append, addrs_cons, List.nodup_append_comm] at hnodup
  have hnew : a ∉ addrs S ++ addrs D := (List.nodup_cons.1 hnodup).1
  rw [List.mem_append, not_or] at hnew
  exact chain_mid.2 ⟨hD.set hnew.2, Store.get?_set_self (Store.live_of_get? ha), hS.set hnew.1⟩

/-! ### An object beside a list -/

/-- A list cut into `D` and `S`, whose ends point on to `d` and back to `s`, and beside it the
object `a`. -/
structure Cut (m : Store ν) (D : List (Addr × κ)) (d : Ptr) (a : Addr) (c : κ) (p n : Ptr)
    (S : List (Addr × κ)) (s : Ptr) : Prop where
  left : Chain m none D d
  beside : m.get? a = some (node c p n)
  right : Chain m s S none
  left_notMem : a ∉ addrs D
  right_notMem : a ∉ addrs S
  nodup : (addrs (D ++ S)).Nodup

section Cut

variable {d s : Ptr} {f : ν → ν}

theorem Cut.disjoint (h : Cut m D d a c p n S s) : (addrs D).Disjoint (addrs S) := by
  have hnodup := h.nodup
  rw [addrs_append] at hnodup
  exact List.disjoint_of_nodup_append hnodup

/-- Around the object `a` of a list, the list is cut. -/
theorem Chain.cut (h : Chain m none (D ++ (a, c) :: S) none) :
    Cut m D (some a) a c (last none D) (first S none) S (some a) := by
  obtain ⟨hD, ha, hS⟩ := chain_mid.1 h
  obtain ⟨haD, haS, hnodup⟩ := h.notMem
  exact ⟨hD, ha, hS, haD, haS, hnodup⟩

theorem Chain.beside (h : Chain m none (D ++ S) none) (ha : m.get? a = some (node c p n))
    (hnew : a ∉ addrs (D ++ S)) : Cut m D (first S none) a c p n S (last none D) := by
  obtain ⟨hD, hS⟩ := chain_append.1 h
  have hnodup := h.nodup
  rw [addrs_append, List.mem_append, not_or] at hnew
  exact ⟨hD, ha, hS, hnew.1, hnew.2, hnodup⟩

/-- The object is linked in. -/
theorem Cut.chain (h : Cut m D (some a) a c (last none D) (first S none) S (some a)) :
    Chain m none (D ++ (a, c) :: S) none :=
  chain_mid.2 ⟨h.left, h.beside, h.right⟩

/-- The list is linked without the object. -/
theorem Cut.chain_without (h : Cut m D (first S none) a c p n S (last none D)) :
    Chain m none (D ++ S) none := chain_append.2 ⟨h.left, h.right⟩

theorem Cut.set_left (h : Cut m D d a c p n S s) (hD : D ≠ [])
    (hf : ∀ c p n, f (node c p n) = node c p q) :
    ∃ m', m.modify (last none D) f = .ok m' ∧ m.Keeps m' ∧ Cut m' D q a c p n S s := by
  have hnodup := h.nodup
  rw [addrs_append, List.nodup_append'] at hnodup
  exact ⟨_, h.left.modify_last hD hf, ⟨fresh_relinkLast, freed_relinkLast⟩,
    h.left.relinkLast hnodup.1, (get?_relinkLast h.left_notMem).trans h.beside,
    h.right.relinkLast_other h.disjoint, h.left_notMem, h.right_notMem, h.nodup⟩

theorem Cut.set_right (h : Cut m D d a c p n S s) (hS : S ≠ [])
    (hf : ∀ c p n, f (node c p n) = node c q n) :
    ∃ m', m.modify (first S none) f = .ok m' ∧ m.Keeps m' ∧ Cut m' D d a c p n S q := by
  have hnodup := h.nodup
  rw [addrs_append, List.nodup_append'] at hnodup
  have hdisj : (addrs S).Disjoint (addrs D) := fun _ hbS hbD => h.disjoint hbD hbS
  exact ⟨_, h.right.modify_first hS hf, ⟨fresh_relinkFirst, freed_relinkFirst⟩,
    h.left.relinkFirst_other hdisj, (get?_relinkFirst h.right_notMem).trans h.beside,
    h.right.relinkFirst hnodup.2.1, h.left_notMem, h.right_notMem, h.nodup⟩

theorem Cut.set_beside {c' : κ} {p' n' : Ptr} (h : Cut m D d a c p n S s)
    (hf : f (node c p n) = node c' p' n') :
    ∃ m', m.modify (some a) f = .ok m' ∧ m.Keeps m' ∧ Cut m' D d a c' p' n' S s := by
  have hlive := Store.live_of_get? h.beside
  exact ⟨_, Store.modify_eq_ok.2 ⟨a, _, rfl, h.beside, rfl⟩, Store.keeps_set,
    h.left.set h.left_notMem, by rw [Store.get?_set_self hlive, hf], h.right.set h.right_notMem,
    h.left_notMem, h.right_notMem, h.nodup⟩

end Cut

end Memory

end LinuxServer
