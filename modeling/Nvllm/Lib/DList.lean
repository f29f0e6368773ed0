import Mathlib.Data.Int.Notation
import Mathlib.Data.List.Chain
import Nvllm.Lib.Dict

/-! # Intrusive doubly linked lists

A queue whose nodes carry their own links: every node has a `prev` and a `next` field, which is
empty when absent from the dictionary, and two sentinels `head` and `tail` bound the list. The
operations change links in place, as an implementation with mutable nodes does, and keep a count.
`Repr q as` says that the links from `head` to `tail` spell `as`; each operation is the list
operation it stands for.
-/

namespace Nvllm.DList

open List

inductive Node (α : Type)
  | head
  | tail
  | elem (a : α)
  deriving DecidableEq, Repr

structure Queue (α : Type) where
  size : ℤ
  prev : Dict (Node α) (Node α)
  next : Dict (Node α) (Node α)
  deriving DecidableEq

variable {α : Type} [DecidableEq α]

namespace Queue

/-- `x.next = y; y.prev = x`. -/
def join (x y : Node α) (q : Queue α) : Queue α :=
  { q with next := q.next.set x y, prev := q.prev.set y x }

/-- `a.prev = a.next = None`. -/
def clear (x : Node α) (q : Queue α) : Queue α :=
  { q with next := q.next.erase x, prev := q.prev.erase x }

def joinAll : List (Node α) → Queue α → Queue α
  | x :: y :: l, q => joinAll (y :: l) (q.join x y)
  | _, q => q

/-- The queue of the given elements. -/
def ofList (as : List α) : Queue α :=
  joinAll (.head :: as.map .elem ++ [.tail]) ⟨as.length, ∅, ∅⟩

/-- The first element; nothing on an empty queue or broken links. -/
def popleft (q : Queue α) : Option (α × Queue α) :=
  match q.next.get? .head with
  | some (.elem a) =>
    match q.next.get? (.elem a) with
    | some n => some (a, { (q.join .head n).clear (.elem a) with size := q.size - 1 })
    | none => none
  | _ => none

/-- The loop of `popleftN`: `n` nodes from `curr` on, each cleared, and the node after them. -/
def popLoop : ℕ → Option (Node α) → Queue α → Option (List α × Option (Node α) × Queue α)
  | 0, curr, q => some ([], curr, q)
  | n + 1, some (.elem a), q =>
    match popLoop n (q.next.get? (.elem a)) (q.clear (.elem a)) with
    | some (as, r) => some (a :: as, r)
    | none => none
  | _ + 1, _, _ => none

/-- The first `n` elements. A negative `n` passes the test against the count, which then grows. -/
def popleftN (n : ℤ) (q : Queue α) : Option (List α × Queue α) :=
  if n = 0 then some ([], q)
  else if n ≤ q.size then
    match popLoop n.toNat (q.next.get? .head) { q with size := q.size - n } with
    | some (as, some curr, q') => some (as, q'.join .head curr)
    | some (as, none, q') => some (as, q')
    | none => none
  else none

/-- Takes an element out of the middle; nothing if its links are empty. -/
def remove (a : α) (q : Queue α) : Option (Queue α) :=
  match q.prev.get? (.elem a), q.next.get? (.elem a) with
  | some p, some n => some { (q.join p n).clear (.elem a) with size := q.size - 1 }
  | _, _ => none

/-- The elements behind `x`, at most `n` of them. -/
def walk (q : Queue α) : ℕ → Node α → List α
  | 0, _ => []
  | n + 1, x =>
    match q.next.get? x with
    | some (.elem a) => a :: q.walk n (.elem a)
    | _ => []

def toList (q : Queue α) : List α := q.walk q.size.toNat .head

/-- The loop of `appendN`: links `as` behind `last` and returns the new last node. -/
def appendLoop : List α → Node α → Queue α → Node α × Queue α
  | [], last, q => (last, q)
  | a :: as, last, q => appendLoop as (.elem a) (q.join last (.elem a))

def appendN (as : List α) (q : Queue α) : Option (Queue α) :=
  if as.isEmpty then some q
  else
    match q.prev.get? .tail with
    | some last =>
      let (last, q') := appendLoop as last q
      some { q'.join last .tail with size := q.size + as.length }
    | none => none

/-! ## Chains of links -/

/-- `y` follows `x`, and both know it. -/
def Joined (q : Queue α) (x y : Node α) : Prop :=
  q.next.get? x = some y ∧ q.prev.get? y = some x

def Linked (q : Queue α) (l : List (Node α)) : Prop := l.IsChain q.Joined

@[simp] theorem join_size (x y : Node α) (q : Queue α) : (q.join x y).size = q.size := rfl

@[simp] theorem clear_size (x : Node α) (q : Queue α) : (q.clear x).size = q.size := rfl

variable {l : List (Node α)} {q : Queue α} {as : List α}

/-- A chain reads `next` of all but its last node and `prev` of all but its first. -/
theorem Linked.frame {q' : Queue α} (hnd : l.Nodup) (h : q.Linked l)
    (hnext : ∀ x ∈ l, l.getLast? ≠ some x → q'.next.get? x = q.next.get? x)
    (hprev : ∀ y ∈ l, l.head? ≠ some y → q'.prev.get? y = q.prev.get? y) : q'.Linked l := by
  induction l with
  | nil => exact List.IsChain.nil
  | cons x l ih =>
    cases l with
    | nil => exact List.IsChain.singleton x
    | cons y l =>
      obtain ⟨hxy, hrest⟩ := isChain_cons_cons.mp h
      obtain ⟨hx, hnd'⟩ := nodup_cons.mp hnd
      have hlast : (x :: y :: l).getLast? = (y :: l).getLast? := getLast?_cons_cons
      refine isChain_cons_cons.mpr ⟨⟨?_, ?_⟩, ih hnd' hrest ?_ ?_⟩
      · rw [hnext x mem_cons_self, hxy.1]
        intro he
        exact hx (mem_of_getLast? (hlast ▸ he))
      · rw [hprev y (mem_cons_of_mem _ mem_cons_self), hxy.2]
        intro he
        obtain rfl : x = y := by simpa using he
        exact hx mem_cons_self
      · intro z hz he
        exact hnext z (mem_cons_of_mem _ hz) (hlast ▸ he)
      · intro z hz _
        refine hprev z (mem_cons_of_mem _ hz) fun he => ?_
        obtain rfl : x = z := by simpa using he
        exact hx hz

theorem Linked.of_size (h : q.Linked l) (n : ℤ) :
    ({ q with size := n } : Queue α).Linked l := h

/-- Joining two chains end to end. -/
theorem Linked.join {l1 l2 : List (Node α)} {x y : Node α} (h1 : q.Linked (l1 ++ [x]))
    (h2 : q.Linked (y :: l2))
    (hnd : (l1 ++ x :: y :: l2).Nodup) : (q.join x y).Linked (l1 ++ x :: y :: l2) := by
  have hnd' : ((l1 ++ [x]) ++ (y :: l2)).Nodup := by simpa using hnd
  obtain ⟨hnd1, hnd2, hdisj⟩ := nodup_append.mp hnd'
  apply isChain_append_cons_cons.mpr
  refine ⟨?_, ⟨by simp [Queue.join], by simp [Queue.join]⟩, ?_⟩
  · refine Linked.frame hnd1 h1 ?_ ?_
    · intro z _ hz
      have hne : z ≠ x := by
        rintro rfl
        simp at hz
      exact Dict.get?_set_of_ne _ _ hne
    · intro z hz _
      exact Dict.get?_set_of_ne _ _ (hdisj z hz y mem_cons_self)
  · refine Linked.frame hnd2 h2 ?_ ?_
    · intro z hz _
      have hne : z ≠ x := (hdisj x (by simp) z hz).symm
      exact Dict.get?_set_of_ne _ _ hne
    · intro z _ hz
      have hne : z ≠ y := by
        rintro rfl
        simp at hz
      exact Dict.get?_set_of_ne _ _ hne

/-- Clearing a node outside a chain. -/
theorem Linked.clear {a : Node α} (h : q.Linked l) (hnd : l.Nodup)
    (ha : a ∉ l) : (q.clear a).Linked l := by
  refine Linked.frame hnd h ?_ ?_ <;> intro z hz _ <;>
    exact Dict.get?_erase_of_ne _ fun he => ha (he ▸ hz)

/-! ## Representation -/

/-- The nodes of a queue of `as`, sentinels included. -/
def spine (as : List α) : List (Node α) := .head :: as.map .elem ++ [.tail]

omit [DecidableEq α] in
theorem nodup_spine (h : as.Nodup) : (spine as).Nodup := by
  have hmap : (as.map Node.elem).Nodup := h.map fun _ _ => Node.elem.inj
  rw [spine, cons_append, nodup_cons, nodup_append]
  refine ⟨by simp, hmap, by simp, ?_⟩
  simp

omit [DecidableEq α] in
theorem elem_mem_spine {a : α} : Node.elem a ∈ spine as ↔ a ∈ as := by
  simp [spine]

/-- The node that `as` and the tail start with. -/
def first : List α → Node α
  | [] => .tail
  | a :: _ => .elem a

omit [DecidableEq α] in
theorem exists_links (as : List α) : ∃ l, as.map Node.elem ++ [Node.tail] = first as :: l := by
  cases as with
  | nil | cons b as => exact ⟨_, rfl⟩

theorem next_of_linked (as : List α) {x : Node α}
    (h : q.Linked (x :: (as.map Node.elem ++ [.tail]))) : q.next.get? x = some (first as) := by
  cases as with
  | nil | cons a as => exact (isChain_cons_cons.mp h).1.1

omit [DecidableEq α] in
/-- The last node in front of what follows `as`. -/
theorem exists_front (as : List α) : ∃ l last, ∀ bs : List α,
    spine (as ++ bs) = l ++ last :: (bs.map Node.elem ++ [.tail]) := by
  obtain ⟨l, last, hl⟩ : ∃ l last, Node.head :: as.map Node.elem = l ++ [last] :=
    ⟨_, _, (dropLast_append_getLast (cons_ne_nil _ _)).symm⟩
  refine ⟨l, last, fun bs => ?_⟩
  rw [spine, map_append, ← cons_append, hl]
  simp

/-- **The queue holds `as`**: walking from `head` along `next` visits the elements of `as`, each
once, and ends at `tail`; the `prev` links run back; the count is their number. -/
structure Repr (q : Queue α) (as : List α) : Prop where
  nodup : as.Nodup
  linked : q.Linked (spine as)
  size : q.size = as.length

theorem joinAll_size (l : List (Node α)) (q : Queue α) : (joinAll l q).size = q.size := by
  induction l generalizing q with
  | nil => rfl
  | cons x l ih =>
    cases l with
    | nil => rfl
    | cons y l => exact ih (q.join x y)

/-- Joining along a list extends a chain that ends where the list starts. -/
theorem joinAll_linked (l1 : List (Node α)) {x : Node α} (h : q.Linked (l1 ++ [x]))
    (hnd : (l1 ++ x :: l).Nodup) : (joinAll (x :: l) q).Linked (l1 ++ x :: l) := by
  induction l generalizing l1 x q with
  | nil => exact h
  | cons y l ih =>
    have hjoin : (q.join x y).Linked ((l1 ++ [x]) ++ [y]) := by
      have hnd' : (l1 ++ x :: y :: []).Nodup :=
        hnd.sublist (Sublist.append_left
          (Sublist.cons_cons x (Sublist.cons_cons y (nil_sublist l))) l1)
      simpa using Linked.join h (List.IsChain.singleton y) hnd'
    have := ih (l1 ++ [x]) hjoin (by simpa using hnd)
    simpa [joinAll] using this

theorem ofList_repr (h : as.Nodup) : (ofList as).Repr as where
  nodup := h
  linked := by
    have := joinAll_linked [] (q := ⟨as.length, ∅, ∅⟩)
      (List.IsChain.singleton (Node.head : Node α)) (nodup_spine h)
    simpa [ofList, spine] using this
  size := joinAll_size _ _

namespace Repr

variable {q : Queue α} {as : List α}

/-- Clearing the first of the linked elements leaves the others linked. -/
theorem linked_pop {a : α} (hnd : (a :: as).Nodup)
    (h : q.Linked ((a :: as).map Node.elem ++ [.tail])) :
    (q.clear (.elem a)).Linked (as.map Node.elem ++ [.tail]) := by
  obtain ⟨ha, hnd'⟩ := nodup_cons.mp hnd
  refine Linked.clear h.tail (nodup_cons.mp (nodup_spine hnd')).2 fun hmem => ha ?_
  simpa using hmem

/-- The loop of `popleftN` on a queue that is long enough. -/
theorem popLoop_eq (ps rs : List α) (hnd : (ps ++ rs).Nodup)
    (h : q.Linked ((ps ++ rs).map Node.elem ++ [.tail])) :
    ∃ q', popLoop ps.length (some (first (ps ++ rs))) q = some (ps, some (first rs), q') ∧
      q'.Linked (rs.map Node.elem ++ [.tail]) ∧ q'.size = q.size := by
  induction ps generalizing q with
  | nil => exact ⟨q, rfl, h, rfl⟩
  | cons a ps ih =>
    obtain ⟨q', hq', hlinked, hsize⟩ := ih (nodup_cons.mp hnd).2 (linked_pop hnd h)
    refine ⟨q', ?_, hlinked, hsize⟩
    rw [← next_of_linked (ps ++ rs) h] at hq'
    simp [popLoop, first, hq']

/-- On a queue that is too short the loop runs into the tail. -/
theorem popLoop_eq_none {n : ℕ} (hnd : as.Nodup)
    (h : q.Linked (as.map Node.elem ++ [.tail])) (hn : as.length < n) :
    popLoop n (some (first as)) q = none := by
  induction as generalizing n q with
  | nil =>
    obtain ⟨n, rfl⟩ := Nat.exists_eq_add_of_lt hn
    rfl
  | cons a as ih =>
    obtain ⟨n, rfl⟩ : ∃ m, n = m + 1 := ⟨n - 1, by simp at hn; omega⟩
    have hnone := ih (nodup_cons.mp hnd).2 (linked_pop hnd h) (by simpa using hn)
    rw [← next_of_linked as h] at hnone
    simp [popLoop, first, hnone]

/-- Joining the head to what follows the popped elements closes the queue again. -/
theorem linked_join_head (hnd : as.Nodup) (h : q.Linked (as.map Node.elem ++ [.tail])) :
    (q.join .head (first as)).Linked (spine as) := by
  obtain ⟨l, hl⟩ := exists_links as
  have hspine : spine as = [] ++ Node.head :: first as :: l := by
    rw [spine, cons_append, hl, nil_append]
  have hnds := nodup_spine hnd
  rw [hspine] at hnds ⊢
  rw [hl] at h
  exact Linked.join (List.IsChain.singleton _) h hnds

/-- The loop of `appendN` joins the new nodes, and `tail` comes last. -/
theorem appendLoop_join (bs : List α) (last : Node α) (q : Queue α) :
    (appendLoop bs last q).2.join (appendLoop bs last q).1 .tail =
      joinAll (last :: (bs.map Node.elem ++ [.tail])) q := by
  induction bs generalizing last q with
  | nil => rfl
  | cons b bs ih => exact ih (.elem b) (q.join last (.elem b))

theorem appendN_eq {bs : List α} (h : q.Repr as) (hnd : (as ++ bs).Nodup) :
    ∃ q', q.appendN bs = some q' ∧ q'.Repr (as ++ bs) := by
  cases bs with
  | nil => exact ⟨q, by simp [appendN], by simpa using h⟩
  | cons b bs =>
    obtain ⟨l, last, hfront⟩ := exists_front as
    have hlinked := h.linked
    rw [← append_nil as, hfront] at hlinked
    obtain ⟨hl, ⟨-, htail⟩, -⟩ := isChain_append_cons_cons.mp hlinked
    have hall := joinAll_linked l hl (hfront (b :: bs) ▸ nodup_spine hnd)
    rw [← hfront, ← appendLoop_join] at hall
    refine ⟨_, by rw [appendN, htail]; rfl, hnd, hall.of_size _, ?_⟩
    rw [h.size, length_append]
    rfl

theorem toList_eq (h : q.Repr as) : q.toList = as := by
  have key : ∀ (l : List α) (x : Node α), q.Linked (x :: l.map Node.elem ++ [.tail]) →
      q.walk l.length x = l := by
    intro l
    induction l with
    | nil => exact fun _ _ => rfl
    | cons a l ih =>
      intro x hx
      obtain ⟨⟨hnext, -⟩, hrest⟩ := isChain_cons_cons.mp hx
      simp only [length_cons, walk, hnext, ih _ hrest]
  rw [toList, h.size]
  exact key as .head h.linked

end Repr

/-! ## Queues whose count may be off -/

/-- The links spell `as`, whatever the count says. -/
structure Holds (q : Queue α) (as : List α) : Prop where
  nodup : as.Nodup
  linked : q.Linked (spine as)

namespace Holds

variable {q : Queue α} {as : List α}

theorem next_head (h : q.Holds as) : q.next.get? .head = some (first as) :=
  next_of_linked as h.linked

theorem remove_eq {a : α} (h : q.Holds as) (ha : a ∈ as) :
    ∃ q', q.remove a = some q' ∧ q'.Holds (as.erase a) ∧ q'.size = q.size - 1 := by
  obtain ⟨as1, as2, rfl, ha1⟩ := eq_append_cons_of_mem ha
  have herase : (as1 ++ a :: as2).erase a = as1 ++ as2 := by
    rw [erase_append_right _ ha1, erase_cons_head]
  -- the neighbours of the node
  obtain ⟨l1, p, hfront⟩ := exists_front as1
  obtain ⟨l2, hn⟩ := exists_links as2
  have hspine : spine (as1 ++ a :: as2) = l1 ++ p :: .elem a :: first as2 :: l2 := by
    rw [hfront, map_cons, cons_append, hn]
  have hspine' : spine (as1 ++ as2) = l1 ++ p :: first as2 :: l2 := by rw [hfront, hn]
  have hlinked := h.linked
  rw [hspine] at hlinked
  obtain ⟨hl1, hpa, hrest⟩ := isChain_append_cons_cons.mp hlinked
  obtain ⟨han, hl2⟩ := isChain_cons_cons.mp hrest
  obtain ⟨hnda, hnd⟩ := nodup_cons.mp (nodup_middle.mp h.nodup)
  have hnds := nodup_spine hnd
  refine ⟨{ (q.join p (first as2)).clear (.elem a) with size := q.size - 1 },
    by simp only [remove, hpa.2, han.1], ?_, rfl⟩
  rw [herase]
  refine ⟨hnd, ?_⟩
  refine Linked.clear ?_ hnds fun hmem => hnda (elem_mem_spine.mp hmem)
  rw [hspine'] at hnds ⊢
  exact Linked.join hl1 hl2 hnds

/-- If there are that many elements, the first `n` are handed out. -/
theorem popleftN_of_le {n : ℤ} (h : q.Holds as) (hn : n.toNat ≤ as.length)
    (hsize : n = 0 ∨ n ≤ q.size) : ∃ q', q.popleftN n = some (as.take n.toNat, q') ∧
      q'.Holds (as.drop n.toNat) ∧ q'.size = q.size - n := by
  by_cases h0 : n = 0
  · subst h0
    exact ⟨q, by simp [popleftN], by simpa using h, by simp⟩
  · have htail : ({ q with size := q.size - n } : Queue α).Linked
        (as.map Node.elem ++ [.tail]) := h.linked.tail
    have hsplit : as.take n.toNat ++ as.drop n.toNat = as := take_append_drop _ _
    obtain ⟨q1, hpop, hlinked, hs⟩ := Repr.popLoop_eq (as.take n.toNat)
      (as.drop n.toNat) (by rw [hsplit]; exact h.nodup) (by rw [hsplit]; exact htail)
    rw [length_take_of_le hn] at hpop
    simp only [hsplit] at hpop
    rw [← h.next_head] at hpop
    have hnd : (as.drop n.toNat).Nodup := h.nodup.sublist (drop_sublist _ _)
    refine ⟨_, ?_, ⟨hnd, Repr.linked_join_head hnd hlinked⟩, hs⟩
    rw [popleftN, if_neg h0, if_pos (hsize.resolve_left h0), hpop]

/-- Whatever number is asked for, what is handed out is the front of the queue. -/
theorem popleftN_eq {n : ℤ} {bs : List α} {q' : Queue α} (h : q.Holds as)
    (he : q.popleftN n = some (bs, q')) : n.toNat ≤ as.length ∧ bs = as.take n.toNat ∧
      q'.Holds (as.drop n.toNat) ∧ q'.size = q.size - n := by
  by_cases hlen : n.toNat ≤ as.length
  · have hsize : n = 0 ∨ n ≤ q.size := by
      unfold popleftN at he
      split at he
      · rename_i h0
        exact .inl h0
      · exact .inr (Option.ite_none_right_eq_some.mp he).1
    obtain ⟨q1, hq1, hholds, hs⟩ := h.popleftN_of_le hlen hsize
    rw [hq1] at he
    cases he
    exact ⟨hlen, rfl, hholds, hs⟩
  · have htail : ({ q with size := q.size - n } : Queue α).Linked
        (as.map Node.elem ++ [.tail]) := h.linked.tail
    rw [popleftN, if_neg (by omega), h.next_head,
      Repr.popLoop_eq_none h.nodup htail (by omega)] at he
    simp at he

end Holds

theorem Repr.holds (h : q.Repr as) : q.Holds as := ⟨h.1, h.2⟩

/-- Popping the first element takes it out as `remove` does. -/
theorem Repr.popleft_eq {a : α} (h : q.Repr (a :: as)) :
    ∃ q', q.popleft = some (a, q') ∧ q'.Repr as := by
  obtain ⟨hhead, hprev⟩ := (isChain_cons_cons.mp h.linked).1
  obtain ⟨q', hq', hholds, hsize⟩ := h.holds.remove_eq mem_cons_self
  rw [erase_cons_head] at hholds
  refine ⟨q', ?_, hholds.nodup, hholds.linked, ?_⟩
  · rw [remove, hprev] at hq'
    rw [popleft, hhead]
    dsimp only at hq' ⊢
    split at hq'
    · rename_i hp hnext
      cases hp
      cases hq'
      rw [hnext]
    · cases hq'
  · rw [hsize, h.size, length_cons]
    omega

end Queue

end Nvllm.DList
