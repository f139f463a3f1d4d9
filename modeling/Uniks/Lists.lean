/-
  The lists of the kernel: `include/uniks/list.h`.

  A list is a head and the nodes behind it, linked both ways.  `Nodes` has the fields of every
  `struct list_node_t`; what is not on a list has whatever was left in it.  `Table` says which heads
  there are, and what is on their lists; `Holds` that the fields say the same.  A node is put on a
  list when it is on none, and taken off the one that it is on (`Table.Step`), which is what the
  functions do not check.
-/
import Uniks.Lib.Runs
import Uniks.Lib.TwoWay

namespace Uniks.Lists

open Uniks.Runs Uniks.TwoWay
open Function (update update_idem update_self update_of_ne update_eq_self)

variable {α : Type} [DecidableEq α]

/-! ## The functions -/

/-- The fields of `struct list_node_t`, by the address of the node. -/
structure Nodes (α : Type) where
  prev : α → α
  next : α → α

def Nodes.setPrev (m : Nodes α) (a v : α) : Nodes α := { m with prev := update m.prev a v }

def Nodes.setNext (m : Nodes α) (a v : α) : Nodes α := { m with next := update m.next a v }

/-- The source's `__list_add`. -/
def listAdd (m : Nodes α) (new prev next : α) : Nodes α :=
  (((m.setPrev next new).setNext prev new).setNext new next).setPrev new prev

/-- The source's `__list_del`. -/
def listUnlink (m : Nodes α) (prev next : α) : Nodes α := (m.setPrev next prev).setNext prev next

/-- The source's `list_empty`. -/
def listEmpty (m : Nodes α) (head : α) : Bool := m.next head = head

/-- The source's `INIT_LIST_HEAD`. -/
def initListHead (m : Nodes α) (list : α) : Nodes α := (m.setNext list list).setPrev list list

/-- The source's `list_add_front`. -/
def listAddFront (m : Nodes α) (new head : α) : Nodes α := listAdd m new head (m.next head)

/-- The source's `list_add_tail`. -/
def listAddTail (m : Nodes α) (new head : α) : Nodes α := listAdd m new (m.prev head) head

/-- The source's `list_del`. -/
def listDel (m : Nodes α) (elem : α) : Nodes α := listUnlink m (m.prev elem) (m.next elem)

/-- The source's `list_del_then_init`. -/
def listDelThenInit (m : Nodes α) (elem : α) : Nodes α := initListHead (listDel m elem) elem

/-- The source's `list_next_then_del`. -/
def listNextThenDel (m : Nodes α) (list : α) : Nodes α × α :=
  (listDel m (m.next list), m.next list)

/-- The source's `list_prev_then_del`. -/
def listPrevThenDel (m : Nodes α) (list : α) : Nodes α × α :=
  (listDel m (m.prev list), m.prev list)

/-- `for (l = list_next(head); l != head; l = list_next(l)) if (..) return l;` from `l` on. -/
def search (m : Nodes α) (head : α) (test : α → Bool) : Nat → α → Option α
  | 0, _ => none
  | k + 1, l =>
    if l = head then none
    else if test l then some l
    else search m head test k (m.next l)

/-- `while (!list_empty(head)) { node = list_next_then_del(head); .. }` with its nodes. -/
def drain (head : α) : Nat → Nodes α → Nodes α × List α
  | 0, m => (m, [])
  | k + 1, m =>
    if listEmpty m head then (m, [])
    else
      let r := drain head k (listNextThenDel m head).1
      (r.1, (listNextThenDel m head).2 :: r.2)

/-! ## What is on the lists -/

/-- The lists by their heads. -/
abbrev Table (α : Type) := α → Option (List α)

/-- On no list. -/
def Table.Free (t : Table α) (a : α) : Prop := ∀ h l, t h = some l → a ∉ l

structure Holds (m : Nodes α) (t : Table α) : Prop where
  circle : ∀ h l, t h = some l → Circle m.next m.prev h l
  nodup : ∀ h l, t h = some l → (h :: l).Nodup
  apart : ∀ g h k l, t g = some k → t h = some l → g ≠ h → List.Disjoint (g :: k) (h :: l)

inductive Op (α : Type) where
  | init (list : α)
  | addFront (new head : α)
  | addTail (new head : α)
  | del (elem : α)
  | delThenInit (elem : α)
  | nextThenDel (list : α)
  | prevThenDel (list : α)
  deriving DecidableEq, Repr

def Op.run (m : Nodes α) : Op α → Nodes α
  | .init list => initListHead m list
  | .addFront new head => listAddFront m new head
  | .addTail new head => listAddTail m new head
  | .del elem => listDel m elem
  | .delThenInit elem => listDelThenInit m elem
  | .nextThenDel list => (listNextThenDel m list).1
  | .prevThenDel list => (listPrevThenDel m list).1

/-- What callers may do, and what it is for.  A head that is put on a list is none any more. -/
inductive Table.Step : Table α → Op α → Table α → Prop
  | init {t : Table α} {a : α} : t.Free a → Step t (.init a) (update t a (some []))
  | addFront {t : Table α} {new head : α} {l : List α} : t.Free new → new ≠ head →
      t head = some l → Step t (.addFront new head)
        (update (update t new none) head (some (new :: l)))
  | addTail {t : Table α} {new head : α} {l : List α} : t.Free new → new ≠ head →
      t head = some l → Step t (.addTail new head)
        (update (update t new none) head (some (l ++ [new])))
  | del {t : Table α} {head elem : α} {xs ys : List α} : t head = some (xs ++ elem :: ys) →
      Step t (.del elem) (update t head (some (xs ++ ys)))
  | delThenInit {t : Table α} {head elem : α} {xs ys : List α} :
      t head = some (xs ++ elem :: ys) → Step t (.delThenInit elem)
        (update (update t head (some (xs ++ ys))) elem (some []))
  | nextThenDel {t : Table α} {head x : α} {l : List α} : t head = some (x :: l) →
      Step t (.nextThenDel head) (update t head (some l))
  | prevThenDel {t : Table α} {head x : α} {l : List α} : t head = some (l ++ [x]) →
      Step t (.prevThenDel head) (update t head (some l))

/-- The fields and what they are for. -/
structure State (α : Type) where
  nodes : Nodes α
  table : Table α

def Step (s : State α) (op : Op α) (s' : State α) : Prop :=
  s'.nodes = op.run s.nodes ∧ s.table.Step op s'.table

/-- No list yet, whatever is in the memory. -/
def fresh (m : Nodes α) : State α := ⟨m, fun _ => none⟩

/-! ## One circle -/

variable {m m' : Nodes α} {t t' : Table α} {a e g h head new x : α} {k l xs ys : List α}

theorem circle_front (hc : Circle m.next m.prev head l) (hnodup : (head :: l).Nodup)
    (hout : new ∉ head :: l) :
    Circle (listAddFront m new head).next (listAddFront m new head).prev head (new :: l) :=
  hc.insert hnodup hout

/-- The end of a list is the front of the circle entered at its last node. -/
theorem circle_tail (hc : Circle m.next m.prev head l) (hnodup : (head :: l).Nodup)
    (hout : new ∉ head :: l) :
    Circle (listAddTail m new head).next (listAddTail m new head).prev head (l ++ [new]) := by
  rcases List.eq_nil_or_concat l with rfl | ⟨ys, p, rfl⟩
  · have hprev : m.prev head = head := hc.prev_eq
    have hnext : m.next head = head := hc.next_eq
    have hsame : listAddTail m new head = listAddFront m new head := by
      rw [listAddTail, listAddFront, hprev, hnext]
    rw [hsame]
    exact circle_front hc hnodup hout
  · rw [List.concat_eq_append] at *
    have hprev : m.prev head = p := by
      rw [hc.prev_eq, List.getLastD_concat]
    have hp : Circle m.next m.prev p (head :: ys) := hc.rotate
    have hnext : m.next p = head := hp.next_eq
    have hsame : listAddTail m new head = listAddFront m new p := by
      rw [listAddTail, listAddFront, hprev, hnext]
    have hperm : (p :: head :: ys).Perm (head :: (ys ++ [p])) :=
      (List.Perm.swap head p ys).trans ((List.perm_append_singleton p ys).symm.cons head)
    have hfront := circle_front hp (hperm.nodup_iff.mpr hnodup)
      fun hin => hout (hperm.subset hin)
    have hback : Circle (listAddFront m new p).next (listAddFront m new p).prev p
        ([new] ++ head :: ys) := hfront
    rw [hsame, List.append_assoc]
    exact hback.rotate

/-- A node is taken out where the circle is entered at the node in front of it. -/
theorem circle_del (hc : Circle m.next m.prev head (xs ++ e :: ys))
    (hnodup : (head :: (xs ++ e :: ys)).Nodup) :
    Circle (listDel m e).next (listDel m e).prev head (xs ++ ys) := by
  rcases List.eq_nil_or_concat xs with rfl | ⟨zs, p, rfl⟩
  · have hnext : m.next head = e := hc.next_eq
    have hprev : m.prev e = head := by
      rw [← hnext]
      exact hc.prev_next
    have hdel := hc.remove hnodup
    rw [listDel, hprev]
    exact hdel
  · rw [List.concat_eq_append] at *
    have hlist : zs ++ [p] ++ e :: ys = zs ++ p :: e :: ys := by
      rw [List.append_assoc]
      rfl
    rw [hlist] at hc hnodup
    have hp : Circle m.next m.prev p (e :: (ys ++ head :: zs)) := hc.rotate
    have hnext : m.next p = e := hp.next_eq
    have hprev : m.prev e = p := by
      rw [← hnext]
      exact hp.prev_next
    have hperm : (p :: e :: ys ++ head :: zs).Perm (head :: zs ++ p :: e :: ys) :=
      List.perm_append_comm
    have hdel := hp.remove (hperm.nodup_iff.mpr hnodup)
    have hdel' : Circle (listDel m e).next (listDel m e).prev p (ys ++ head :: zs) := by
      rw [listDel, hprev]
      exact hdel
    rw [List.append_assoc]
    exact hdel'.rotate

/-- Where `list_add_front` stores. -/
theorem front_elsewhere (hhead : x ≠ head) (hnext : x ≠ m.next head) (hnew : x ≠ new) :
    (listAddFront m new head).next x = m.next x ∧ (listAddFront m new head).prev x = m.prev x := by
  constructor
  · show update (update m.next head new) new (m.next head) x = m.next x
    rw [update_of_ne hnew, update_of_ne hhead]
  · show update (update m.prev (m.next head) new) new head x = m.prev x
    rw [update_of_ne hnew, update_of_ne hnext]

theorem tail_elsewhere (hhead : x ≠ head) (hprev : x ≠ m.prev head) (hnew : x ≠ new) :
    (listAddTail m new head).next x = m.next x ∧ (listAddTail m new head).prev x = m.prev x := by
  constructor
  · show update (update m.next (m.prev head) new) new head x = m.next x
    rw [update_of_ne hnew, update_of_ne hprev]
  · show update (update m.prev head new) new (m.prev head) x = m.prev x
    rw [update_of_ne hnew, update_of_ne hhead]

theorem del_elsewhere (hprev : x ≠ m.prev e) (hnext : x ≠ m.next e) :
    (listDel m e).next x = m.next x ∧ (listDel m e).prev x = m.prev x := by
  constructor
  · show update m.next (m.prev e) (m.next e) x = m.next x
    rw [update_of_ne hprev]
  · show update m.prev (m.next e) (m.prev e) x = m.prev x
    rw [update_of_ne hnext]

theorem init_elsewhere (hx : x ≠ a) :
    (initListHead m a).next x = m.next x ∧ (initListHead m a).prev x = m.prev x :=
  ⟨update_of_ne hx .., update_of_ne hx ..⟩

theorem circle_init : Circle (initListHead m a).next (initListHead m a).prev a [] :=
  List.IsChain.cons_cons ⟨update_self .., update_self ..⟩
    (List.IsChain.singleton a)

/-! ## One list among the others -/

/-- One list changes, the others are among those that were there, and the stores are elsewhere. -/
theorem Holds.put (h : Holds m t) (hhead : t' head = some l)
    (hc : Circle m'.next m'.prev head l) (hnodup : (head :: l).Nodup)
    (hold : ∀ g k, g ≠ head → t' g = some k → t g = some k ∧ List.Disjoint (g :: k) (head :: l) ∧
      ∀ x ∈ g :: k, m'.next x = m.next x ∧ m'.prev x = m.prev x) : Holds m' t' := by
  refine ⟨fun g k hg => ?_, fun g k hg => ?_, fun g g' k k' hg hg' hne => ?_⟩
  · by_cases hgh : g = head
    · subst hgh
      cases hhead.symm.trans hg
      exact hc
    · obtain ⟨hg, -, hsame⟩ := hold g k hgh hg
      exact (h.circle g k hg).congr (fun x hx => (hsame x hx).1) fun x hx => (hsame x hx).2
  · by_cases hgh : g = head
    · subst hgh
      cases hhead.symm.trans hg
      exact hnodup
    · exact h.nodup g k (hold g k hgh hg).1
  · by_cases hgh : g = head
    · subst hgh
      cases hhead.symm.trans hg
      exact fun x hx hx' => (hold g' k' hne.symm hg').2.1 hx' hx
    · by_cases hgh' : g' = head
      · subst hgh'
        cases hhead.symm.trans hg'
        exact (hold g k hgh hg).2.1
      · exact h.apart g g' k k' (hold g k hgh hg).1 (hold g' k' hgh' hg').1 hne

omit [DecidableEq α] in
/-- Who is on a list is not on that of another head, and not one. -/
theorem Holds.off (h : Holds m t) (hhead : t head = some l) (hne : g ≠ head) (hg : t g = some k)
    (hx : x ∈ g :: k) : x ∉ head :: l := h.apart g head k l hg hhead hne hx

/-- A list loses a node. -/
theorem Holds.drop (h : Holds m t) (hhead : t head = some (xs ++ e :: ys)) :
    Holds (listDel m e) (update t head (some (xs ++ ys))) := by
  have hc := h.circle head _ hhead
  have hnodup := h.nodup head _ hhead
  have hsub : (head :: (xs ++ ys)).Sublist (head :: (xs ++ e :: ys)) :=
    List.Sublist.cons_cons head (List.Sublist.append_left (List.sublist_cons_self e ys) xs)
  have hperm : (e :: (ys ++ head :: xs)).Perm (head :: (xs ++ e :: ys)) :=
    (List.perm_append_comm : (e :: ys ++ head :: xs).Perm (head :: xs ++ e :: ys))
  have hnext : m.next e ∈ head :: (xs ++ e :: ys) := hperm.subset hc.rotate.next_mem
  have hprev : m.prev e ∈ head :: (xs ++ e :: ys) := hperm.subset hc.rotate.prev_mem
  refine h.put (update_self ..) (circle_del hc hnodup) (hnodup.sublist hsub) ?_
  intro g k hne hg
  rw [update_of_ne hne] at hg
  refine ⟨hg, fun x hx hin => h.off hhead hne hg hx (hsub.subset hin), fun x hx => ?_⟩
  have hoff := h.off hhead hne hg hx
  exact del_elsewhere (fun heq => hoff (heq ▸ hprev)) fun heq => hoff (heq ▸ hnext)

/-- A list gains a node, at the front or at the end. -/
theorem Holds.gain (h : Holds m t) (hfree : t.Free new) (hne : new ≠ head)
    (hhead : t head = some l) (hperm : k.Perm (new :: l))
    (hc : Circle m'.next m'.prev head k)
    (hframe : ∀ x, x ∉ head :: l → x ≠ new → m'.next x = m.next x ∧ m'.prev x = m.prev x) :
    Holds m' (update (update t new none) head (some k)) := by
  have hout : new ∉ head :: l := fun hin => by
    rcases List.mem_cons.mp hin with heq | hin
    · exact hne heq
    · exact hfree head l hhead hin
  have hall : (head :: k).Perm (new :: head :: l) :=
    (hperm.cons head).trans (List.Perm.swap new head l)
  have hnodup : (head :: k).Nodup :=
    hall.nodup_iff.mpr (List.nodup_cons.mpr ⟨hout, h.nodup head l hhead⟩)
  refine h.put (update_self ..) hc hnodup fun g j hgh hg => ?_
  rw [update_of_ne hgh] at hg
  have hgn : g ≠ new := by
    rintro rfl
    rw [update_self] at hg
    cases hg
  rw [update_of_ne hgn] at hg
  have hxn : ∀ x ∈ g :: j, x ≠ new := by
    intro x hx heq
    rw [heq] at hx
    rcases List.mem_cons.mp hx with heq | hin
    · exact hgn heq.symm
    · exact hfree g j hg hin
  refine ⟨hg, fun x hx hin => ?_, fun x hx => hframe x (h.off hhead hgh hg hx) (hxn x hx)⟩
  rcases List.mem_cons.mp (hall.subset hin) with heq | hin
  · exact hxn x hx heq
  · exact h.off hhead hgh hg hx hin

theorem Holds.begin (h : Holds m t) (hfree : t.Free a) :
    Holds (initListHead m a) (update t a (some [])) := by
  have hone : [a].Nodup := List.nodup_cons.mpr ⟨List.not_mem_nil, List.nodup_nil⟩
  refine h.put (update_self ..) circle_init hone fun g k hga hg => ?_
  rw [update_of_ne hga] at hg
  have hxa : ∀ x ∈ g :: k, x ≠ a := by
    intro x hx heq
    rw [heq] at hx
    rcases List.mem_cons.mp hx with heq | hin
    · exact hga heq.symm
    · exact hfree g k hg hin
  exact ⟨hg, fun x hx hin => hxa x hx (List.mem_singleton.mp hin),
    fun x hx => init_elsewhere (hxa x hx)⟩

/-- A node that was taken off its list is on none. -/
theorem Holds.free_dropped (h : Holds m t) (hhead : t head = some (xs ++ e :: ys)) :
    Table.Free (update t head (some (xs ++ ys))) e := by
  have hin : e ∈ head :: (xs ++ e :: ys) :=
    List.mem_cons_of_mem head (List.mem_append_right xs List.mem_cons_self)
  have hnodup := (List.nodup_cons.mp (h.nodup head _ hhead)).2
  intro g k hg hmem
  by_cases hgh : g = head
  · subst hgh
    rw [update_self] at hg
    cases hg
    have hcons : (e :: (xs ++ ys)).Nodup := List.perm_middle.nodup_iff.mp hnodup
    exact (List.nodup_cons.mp hcons).1 hmem
  · rw [update_of_ne hgh] at hg
    exact h.off hhead hgh hg (List.mem_cons_of_mem g hmem) hin

/-- What the callers may do keeps the lists. -/
theorem Holds.step (h : Holds m t) {op : Op α} (hs : t.Step op t') : Holds (op.run m) t' := by
  cases hs with
  | init hfree => exact h.begin hfree
  | @addFront new head l hfree hne hhead =>
    have hc := h.circle head l hhead
    have hout : new ∉ head :: l := fun hin => by
      rcases List.mem_cons.mp hin with heq | hin
      · exact hne heq
      · exact hfree head l hhead hin
    refine h.gain hfree hne hhead (List.Perm.refl _)
      (circle_front hc (h.nodup head l hhead) hout) ?_
    intro x hx hxn
    exact front_elsewhere (fun heq => hx (heq ▸ List.mem_cons_self))
      (fun heq => hx (heq ▸ hc.next_mem)) hxn
  | @addTail new head l hfree hne hhead =>
    have hc := h.circle head l hhead
    have hout : new ∉ head :: l := fun hin => by
      rcases List.mem_cons.mp hin with heq | hin
      · exact hne heq
      · exact hfree head l hhead hin
    refine h.gain hfree hne hhead (List.perm_append_singleton new l)
      (circle_tail hc (h.nodup head l hhead) hout) ?_
    intro x hx hxn
    exact tail_elsewhere (fun heq => hx (heq ▸ List.mem_cons_self))
      (fun heq => hx (heq ▸ hc.prev_mem)) hxn
  | del hhead => exact h.drop hhead
  | delThenInit hhead => exact (h.drop hhead).begin (h.free_dropped hhead)
  | @nextThenDel head x l hhead =>
    have hnext : m.next head = x := (h.circle head _ hhead).next_eq
    show Holds (listDel m (m.next head)) _
    rw [hnext]
    have hdrop : Holds (listDel m x) (update t head (some ([] ++ l))) := h.drop hhead
    exact hdrop
  | @prevThenDel head x l hhead =>
    have hprev : m.prev head = x := by
      rw [(h.circle head _ hhead).prev_eq, List.getLastD_concat]
    show Holds (listDel m (m.prev head)) _
    rw [hprev]
    have hdrop : Holds (listDel m x) (update t head (some (l ++ []))) := h.drop hhead
    rwa [List.append_nil] at hdrop

/-! ## Runs and loops -/

theorem Table.Free.update (h : t.Free a) {j : Option (List α)} (hj : ∀ l, j = some l → a ∉ l) :
    Table.Free (update t g j) a := by
  intro g' l hl
  by_cases hg : g' = g
  · rw [hg, update_self] at hl
    exact hj l hl
  · rw [update_of_ne hg] at hl
    exact h g' l hl

theorem run_holds {s : State α} (hrun : Reaches Step anyInput (fresh m) s) :
    Holds s.nodes s.table := by
  refine hrun.invariant (I := fun s => Holds s.nodes s.table) ?_ ?_
  · exact ⟨nofun, nofun, nofun⟩
  · rintro a op b hold - ⟨hnodes, htable⟩
    rw [hnodes]
    exact hold.step htable

omit [DecidableEq α] in
theorem Holds.next_eq (h : Holds m t) (hhead : t head = some l) : m.next head = l.headD head :=
  (h.circle head l hhead).next_eq

theorem Holds.empty_iff (h : Holds m t) (hhead : t head = some l) :
    listEmpty m head = true ↔ l = [] := by
  rw [listEmpty, decide_eq_true_iff, h.next_eq hhead]
  cases l with
  | nil => exact ⟨fun _ => rfl, fun _ => rfl⟩
  | cons x l =>
    refine ⟨fun heq => ?_, nofun⟩
    have hnodup := (List.nodup_cons.mp (h.nodup head _ hhead)).1
    exact absurd (heq ▸ List.mem_cons_self) hnodup

/-- The rest of the loop over a list, from the node behind `a`. -/
theorem search_rest {test : α → Bool} {n : Nat} (hl : Linked m.next m.prev (a :: l ++ [head]))
    (hout : head ∉ l) (hn : l.length < n) :
    search m head test n (m.next a) = l.find? test := by
  induction l generalizing a n with
  | nil =>
    obtain ⟨n, rfl⟩ := Nat.exists_eq_succ_of_ne_zero (Nat.ne_zero_of_lt hn)
    have hnext : m.next a = head := (linked_cons_cons.mp hl).1.1
    exact if_pos hnext
  | cons x l ih =>
    obtain ⟨n, rfl⟩ := Nat.exists_eq_succ_of_ne_zero (Nat.ne_zero_of_lt hn)
    obtain ⟨⟨hnext, -⟩, hrest⟩ := linked_cons_cons.mp hl
    obtain ⟨hxh, hout⟩ := not_or.mp (mt List.mem_cons.mpr hout)
    rw [hnext, search, if_neg fun heq => hxh heq.symm]
    cases htest : test x with
    | true =>
      rw [if_pos rfl, List.find?_cons_of_pos htest]
    | false =>
      have hno : ¬ test x = true := by
        rw [htest]
        exact nofun
      rw [if_neg nofun, List.find?_cons_of_neg hno]
      exact ih hrest hout (Nat.lt_of_succ_lt_succ hn)

/-- A loop over a list finds what is first on it. -/
theorem Holds.search (h : Holds m t) (hhead : t head = some l) (test : α → Bool) {n : Nat}
    (hn : l.length < n) : search m head test n (m.next head) = l.find? test :=
  search_rest (h.circle head l hhead) (List.nodup_cons.mp (h.nodup head l hhead)).1 hn

/-- A loop that takes all off a list has each node once, and in the order of the list. -/
theorem Holds.drain (h : Holds m t) (hhead : t head = some l) {n : Nat} (hn : l.length ≤ n) :
    (drain head n m).2 = l ∧
      Holds (drain head n m).1 (update t head (some [])) := by
  induction n generalizing m t l with
  | zero =>
    obtain rfl := List.length_eq_zero_iff.mp (Nat.le_zero.mp hn)
    refine ⟨rfl, ?_⟩
    rw [← hhead, update_eq_self]
    exact h
  | succ n ih =>
    cases l with
    | nil =>
      rw [Lists.drain, if_pos ((h.empty_iff hhead).mpr rfl), ← hhead, update_eq_self]
      exact ⟨rfl, h⟩
    | cons x l =>
      have hne : ¬ listEmpty m head = true := fun heq => nomatch (h.empty_iff hhead).mp heq
      have hnode : (listNextThenDel m head).2 = x := h.next_eq hhead
      have hstep : Holds (listNextThenDel m head).1 (update t head (some l)) :=
        h.step (.nextThenDel hhead)
      obtain ⟨hlist, hrest⟩ := ih hstep (update_self ..) (Nat.le_of_succ_le_succ hn)
      rw [update_idem] at hrest
      rw [Lists.drain, if_neg hne]
      exact ⟨congrArg₂ List.cons hnode hlist, hrest⟩

/-- In every run the fields say what is on the lists: `list_empty` is right, a loop over a list
    finds what is first on it, `list_next_then_del` and `list_prev_then_del` take its ends, and a
    loop that takes everything off has each node once, in order. -/
theorem lists_run {s : State α} (hrun : Reaches Step anyInput (fresh m) s)
    (hhead : s.table head = some l) :
    Holds s.nodes s.table ∧ (listEmpty s.nodes head = true ↔ l = []) ∧
    (∀ test n, l.length < n → Lists.search s.nodes head test n (s.nodes.next head) = l.find? test) ∧
    (listNextThenDel s.nodes head).2 = l.headD head ∧
    (listPrevThenDel s.nodes head).2 = l.getLastD head ∧
    ∀ n, l.length ≤ n → (Lists.drain head n s.nodes).2 = l ∧
      Holds (Lists.drain head n s.nodes).1 (update s.table head (some [])) := by
  have h := run_holds hrun
  exact ⟨h, h.empty_iff hhead, fun test n hn => h.search hhead test hn, h.next_eq hhead,
    (h.circle head l hhead).prev_eq, fun n hn => h.drain hhead hn⟩

omit [DecidableEq α] in
theorem Table.free_none (a : α) : Table.Free (fun _ => none) a := nofun

/-- Two nodes at the two ends of a list, in memory that nobody has written. -/
theorem lists_run_two : ∃ s : State Nat, Reaches Step anyInput (fresh ⟨id, fun _ => 7⟩) s ∧
    s.table 0 = some [1, 2] ∧ Holds s.nodes s.table ∧
    (Lists.drain 0 2 s.nodes).2 = [1, 2] := by
  have hone : Table.Free (update (fun _ => none) 0 (some [])) 1 :=
    (Table.free_none 1).update fun l hl => by
      cases hl
      exact List.not_mem_nil
  have hempty : Table.Free (update (fun _ => none) 0 (some [])) 2 :=
    (Table.free_none 2).update fun l hl => by
      cases hl
      exact List.not_mem_nil
  have htwo : Table.Free (update (update
      (update (fun _ => none) 0 (some [])) 1 none) 0 (some [1])) 2 := by
    have hgone := hempty.update (g := 1) (j := none) fun l hl => nomatch hl
    refine hgone.update fun l hl => ?_
    cases hl
    decide
  let s0 : State Nat := fresh ⟨id, fun _ => 7⟩
  let s1 : State Nat := ⟨Op.run s0.nodes (.init 0), update s0.table 0 (some [])⟩
  let s2 : State Nat := ⟨Op.run s1.nodes (.addFront 1 0),
    update (update s1.table 1 none) 0 (some [1])⟩
  let s3 : State Nat := ⟨Op.run s2.nodes (.addTail 2 0),
    update (update s2.table 2 none) 0 (some [1, 2])⟩
  have h0 : Step s0 (.init 0) s1 := ⟨rfl, .init (Table.free_none 0)⟩
  have h1 : Step s1 (.addFront 1 0) s2 := ⟨rfl, .addFront hone (by decide) rfl⟩
  have htail : s2.table.Step (.addTail 2 0)
      (update (update s2.table 2 none) 0 (some ([1] ++ [2]))) :=
    .addTail htwo (by decide) rfl
  have h2 : Step s2 (.addTail 2 0) s3 := ⟨rfl, htail⟩
  have hrun : Reaches Step anyInput s0 s3 :=
    ((Reaches.refl.snoc trivial h0).snoc trivial h1).snoc trivial h2
  obtain ⟨hholds, -, -, -, -, hdrain⟩ := lists_run hrun (show s3.table 0 = some [1, 2] from rfl)
  exact ⟨s3, hrun, rfl, hholds, (hdrain 2 (by decide)).1⟩

end Uniks.Lists
