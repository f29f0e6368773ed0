import Nvllm.Lib.Heapq
import Nvllm.Sched.Request

/-! # Request queues

A queue is the list that the Python class keeps: a deque in order of arrival for `FCFSRequestQueue`,
a binary heap for `PriorityRequestQueue`. The comparison `lt` is that of the requests at the time of
the call. For either policy an operation changes the contents of the queue in the same way; the
lemmas say so up to permutation.
-/

namespace Nvllm.Sched

inductive SchedulingPolicy
  | fcfs
  | priority
  deriving DecidableEq, Repr

/-- `utils.remove_all`: a single item is removed once, several are filtered out. -/
def removeAll (lst itemsToRemove : List Ref) : List Ref :=
  match itemsToRemove with
  | [] => lst
  | [x] => lst.erase x
  | _ => lst.filter (· ∉ itemsToRemove)

theorem removeAll_eq_filter {lst : List Ref} (h : lst.Nodup) (itemsToRemove : List Ref) :
    removeAll lst itemsToRemove = lst.filter (· ∉ itemsToRemove) := by
  unfold removeAll
  split
  · simp
  · rw [h.erase_eq_filter]
    apply List.filter_congr
    simp [bne, beq_eq_decide]
  · rfl

namespace RequestQueue

variable (policy : SchedulingPolicy) (lt : Ref → Ref → Bool)

def addRequest (x : Ref) (q : List Ref) : List Ref :=
  match policy with
  | .fcfs => q ++ [x]
  | .priority => Heapq.heappush lt q x

def popRequest (q : List Ref) : Option (Ref × List Ref) :=
  match policy with
  | .fcfs => match q with
    | [] => none
    | x :: q => some (x, q)
  | .priority => Heapq.heappop lt q

def peekRequest (q : List Ref) : Option Ref := q.head?

def prependRequest (x : Ref) (q : List Ref) : List Ref :=
  match policy with
  | .fcfs => x :: q
  | .priority => Heapq.heappush lt q x

/-- `prepend_requests`: `extendleft` reverses the order, a heap takes them one by one. -/
def prependRequests (xs q : List Ref) : List Ref :=
  match policy with
  | .fcfs => xs.reverse ++ q
  | .priority => (Heapq.drain lt xs.length xs).foldl (Heapq.heappush lt) q

def removeRequests (xs q : List Ref) : List Ref :=
  match policy with
  | .fcfs => q.filter (· ∉ xs)
  | .priority => Heapq.heapify lt (q.filter (· ∉ xs))

/-! ## Contents -/

theorem addRequest_perm (x : Ref) (q : List Ref) : (addRequest policy lt x q).Perm (x :: q) := by
  cases policy with
  | fcfs => exact List.perm_append_singleton x q
  | priority => exact Heapq.heappush_perm lt q x

theorem prependRequest_perm (x : Ref) (q : List Ref) :
    (prependRequest policy lt x q).Perm (x :: q) := by
  cases policy with
  | fcfs => exact List.Perm.refl _
  | priority => exact Heapq.heappush_perm lt q x

theorem popRequest_perm {q q' : List Ref} {x : Ref} (h : popRequest policy lt q = some (x, q')) :
    q.Perm (x :: q') := by
  cases policy with
  | fcfs =>
    cases q with
    | nil => cases h
    | cons y q =>
      cases h
      exact List.Perm.refl _
  | priority => exact Heapq.heappop_perm lt h

/-- The popped request is the one at the front. -/
theorem peekRequest_of_pop {q q' : List Ref} {x : Ref}
    (h : popRequest policy lt q = some (x, q')) : peekRequest q = some x := by
  cases policy with
  | fcfs =>
    cases q with
    | nil => cases h
    | cons y q =>
      cases h
      rfl
  | priority => exact Heapq.head?_of_heappop lt h

theorem foldl_heappush_perm (xs q : List Ref) :
    (xs.foldl (Heapq.heappush lt) q).Perm (xs ++ q) := by
  induction xs generalizing q with
  | nil => exact List.Perm.refl q
  | cons x xs ih =>
    calc ((x :: xs).foldl (Heapq.heappush lt) q).Perm (xs ++ Heapq.heappush lt q x) := ih _
      List.Perm _ (xs ++ x :: q) := (Heapq.heappush_perm lt q x).append_left xs
      List.Perm _ (x :: xs ++ q) := List.perm_middle

theorem prependRequests_perm (xs q : List Ref) :
    (prependRequests policy lt xs q).Perm (xs ++ q) := by
  cases policy with
  | fcfs => exact (List.reverse_perm xs).append_right q
  | priority =>
    apply (foldl_heappush_perm lt _ q).trans
    exact (Heapq.drain_perm lt (Nat.le_refl _)).append_right q

theorem removeRequests_perm (xs q : List Ref) :
    (removeRequests policy lt xs q).Perm (q.filter (· ∉ xs)) := by
  cases policy with
  | fcfs => exact List.Perm.refl _
  | priority => exact Heapq.heapify_perm lt _

end RequestQueue

end Nvllm.Sched
