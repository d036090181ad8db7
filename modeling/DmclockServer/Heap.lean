import Mathlib.Data.List.Basic
import Mathlib.Data.List.Perm.Basic
import Mathlib.Data.List.Count
import Mathlib.Tactic.Linarith

/-!
# The indirect intrusive heap

`IndIntruHeap` (`indirect_intrusive_heap.h`) is not among the sources. It is modelled from the
spec (§2: "a d-ary min-heap parameterized by a comparator and an embedded slot per element;
supports push, top, pop, remove-by-handle, promote, demote, adjust"): a `K`-ary heap kept in an
array, ordered by the comparator `lt` ("precedes"), with the usual `sift_up` and `sift_down`. The
intrusive back-index of an element is its position in the array; promoting, demoting or adjusting
an element that is not in the heap leaves the heap unchanged, and so does removing one (`rfind`
finds no entry).

This module gives the operations and shows that each one moves elements without creating or
losing any (`List.Perm`); the order they restore is in `HeapOrder`.
-/

namespace DmclockServer

namespace IndIntruHeap

variable {α : Type}

/-- Position of the parent of `i` in a `K`-ary heap. -/
def parent (K i : ℕ) : ℕ := (i - 1) / K

/-- Position of the first child of `i` (the source's `lhs`). -/
def lhs (K i : ℕ) : ℕ := K * i + 1

/-- `std::swap(data[i], data[j])`. -/
def swap (l : List α) (i j : ℕ) : List α :=
  match l[i]?, l[j]? with
  | some a, some b => (l.set i b).set j a
  | _, _ => l

section Ops

variable (K : ℕ) (lt : α → α → Bool)

/-- The loop of `sift_up`: move the element at `i` towards the root while it precedes its
parent. -/
def siftUpLoop : ℕ → List α → ℕ → List α
  | 0, l, _ => l
  | fuel + 1, l, i =>
    if i = 0 then l else
    match l[i]?, l[parent K i]? with
    | some a, some b =>
      if lt a b then siftUpLoop fuel (swap l i (parent K i)) (parent K i) else l
    | _, _ => l

/-- `sift_up(i)`; the index at least halves at each step, so `i` steps suffice. -/
def siftUp (l : List α) (i : ℕ) : List α := siftUpLoop K lt i l i

/-- One step of the search for the least child: keep `m` unless `k` precedes it. -/
def minChildStep (l : List α) (m k : ℕ) : ℕ :=
  match l[k]?, l[m]? with
  | some a, some b => if lt a b then k else m
  | _, _ => m

/-- The first least child of `i` (the source's `min_i`), skipping children past the end. -/
def minChild (l : List α) (i : ℕ) : ℕ :=
  (List.range' (lhs K i + 1) (K - 1)).foldl (minChildStep lt l) (lhs K i)

/-- The loop of `sift_down`: swap the element at `i` with its least child while that child
precedes it. -/
def siftDownLoop : ℕ → List α → ℕ → List α
  | 0, l, _ => l
  | fuel + 1, l, i =>
    match l[minChild K lt l i]?, l[i]? with
    | some a, some b =>
      if lt a b then siftDownLoop fuel (swap l i (minChild K lt l i)) (minChild K lt l i) else l
    | _, _ => l

/-- `sift_down(i)`; each step moves to a larger position, so the length suffices. -/
def siftDown (l : List α) (i : ℕ) : List α := siftDownLoop K lt l.length l i

/-- `sift(i)`: up if the element precedes its parent, down otherwise. -/
def sift (l : List α) (i : ℕ) : List α :=
  if i = 0 then siftDown K lt l i else
  match l[i]?, l[parent K i]? with
  | some a, some b => if lt a b then siftUp K lt l i else siftDown K lt l i
  | _, _ => l

/-- `push`: append and sift up. -/
def push (l : List α) (x : α) : List α := siftUp K lt (l ++ [x]) l.length

/-- `remove(i)`: move the last element into slot `i`, drop the last slot, and sift `i`. -/
def removeAt (l : List α) (i : ℕ) : List α :=
  if i < l.length then sift K lt (swap l i (l.length - 1)).dropLast i else l

/-- `top()`, for a heap that is not empty. -/
def top (l : List α) : Option α := l.head?

variable [DecidableEq α]

/-- `rfind`: the last position that holds `x`. -/
def rfind (l : List α) (x : α) : Option ℕ :=
  (List.range l.length).reverse.find? (fun i => l[i]? = some x)

/-- `delete_from_heap`: `remove(rfind(x))`. -/
def deleteFromHeap (l : List α) (x : α) : List α :=
  match rfind l x with
  | some i => removeAt K lt l i
  | none => l

/-- `promote(x)`: sift up from the slot of `x`. -/
def promote (l : List α) (x : α) : List α := siftUp K lt l (l.indexOf x)

/-- `demote(x)`: sift down from the slot of `x`. -/
def demote (l : List α) (x : α) : List α := siftDown K lt l (l.indexOf x)

/-- `adjust(x)`: sift either way from the slot of `x`. -/
def adjust (l : List α) (x : α) : List α := sift K lt l (l.indexOf x)

end Ops

theorem length_swap (l : List α) (i j : ℕ) : (swap l i j).length = l.length := by
  unfold swap; split <;> simp

/-! ## Every operation permutes the array -/

section Perm

variable [DecidableEq α] (K : ℕ) (lt : α → α → Bool)

theorem swap_perm (l : List α) (i j : ℕ) : List.Perm (swap l i j) l := by
  unfold swap
  split
  · rename_i a b ha hb
    obtain ⟨hi, rfl⟩ := List.getElem?_eq_some_iff.mp ha
    obtain ⟨hj, rfl⟩ := List.getElem?_eq_some_iff.mp hb
    rw [List.perm_iff_count]
    intro c
    have hmem : 0 < l.count l[i] := List.count_pos_iff.mpr (List.getElem_mem hi)
    rw [List.count_set _ _ _ _ (by simpa using hj), List.count_set _ _ _ _ hi,
      List.getElem_set]
    by_cases hij : i = j
    · subst hij
      by_cases hc : l[i] = c <;> simp_all
    · by_cases hc : l[i] = c <;> simp_all
  · exact List.Perm.refl l


theorem siftUpLoop_perm (fuel : ℕ) (l : List α) (i : ℕ) : List.Perm (siftUpLoop K lt fuel l i) l := by
  induction fuel generalizing l i with
  | zero => exact List.Perm.refl l
  | succ fuel ih =>
    unfold siftUpLoop
    split
    · exact List.Perm.refl l
    · split
      · split
        · exact (ih _ _).trans (swap_perm l _ _)
        · exact List.Perm.refl l
      · exact List.Perm.refl l

theorem siftDownLoop_perm (fuel : ℕ) (l : List α) (i : ℕ) : List.Perm (siftDownLoop K lt fuel l i) l := by
  induction fuel generalizing l i with
  | zero => exact List.Perm.refl l
  | succ fuel ih =>
    unfold siftDownLoop
    split
    · split
      · exact (ih _ _).trans (swap_perm l _ _)
      · exact List.Perm.refl l
    · exact List.Perm.refl l

theorem siftUp_perm (l : List α) (i : ℕ) : List.Perm (siftUp K lt l i) l := siftUpLoop_perm K lt _ l i

theorem siftDown_perm (l : List α) (i : ℕ) : List.Perm (siftDown K lt l i) l := siftDownLoop_perm K lt _ l i

theorem sift_perm (l : List α) (i : ℕ) : List.Perm (sift K lt l i) l := by
  unfold sift
  split
  · exact siftDown_perm K lt l i
  · split
    · split
      · exact siftUp_perm K lt l i
      · exact siftDown_perm K lt l i
    · exact List.Perm.refl l

theorem push_perm (l : List α) (x : α) : List.Perm (push K lt l x) (x :: l) :=
  (siftUp_perm K lt _ _).trans (List.perm_append_singleton x l)

theorem promote_perm (l : List α) (x : α) : List.Perm (promote K lt l x) l := siftUp_perm K lt _ _

theorem demote_perm (l : List α) (x : α) : List.Perm (demote K lt l x) l := siftDown_perm K lt _ _

theorem adjust_perm (l : List α) (x : α) : List.Perm (adjust K lt l x) l := sift_perm K lt _ _

/-- Removing slot `i` takes out exactly the element there. -/
theorem removeAt_perm (l : List α) {i : ℕ} (hi : i < l.length) :
    List.Perm (l[i] :: removeAt K lt l i) l := by
  have hlast : (swap l i (l.length - 1)).getLast? = some l[i] := by
    have hl : l.length - 1 < l.length := by omega
    rw [List.getLast?_eq_getElem?, length_swap]
    unfold swap
    simp only [List.getElem?_eq_getElem hi, List.getElem?_eq_getElem hl]
    simp [List.getElem?_set, hl]
  have hsplit := List.dropLast_append_getLast? _ hlast
  unfold removeAt
  rw [if_pos hi]
  refine ((sift_perm K lt _ _).cons _).trans ?_
  refine List.Perm.trans ?_ (swap_perm l i (l.length - 1))
  conv_rhs => rw [← hsplit]
  exact (List.perm_append_singleton _ _).symm

theorem rfind_spec {l : List α} {x : α} {i : ℕ} (h : rfind l x = some i) :
    ∃ hi : i < l.length, l[i] = x := by
  unfold rfind at h
  have hx := List.find?_some h
  have hmem := List.mem_of_find?_eq_some h
  simp only [List.mem_reverse, List.mem_range] at hmem
  simp only [decide_eq_true_eq] at hx
  exact ⟨hmem, by simpa [List.getElem?_eq_getElem hmem] using hx⟩

theorem rfind_none {l : List α} {x : α} (h : rfind l x = none) : x ∉ l := by
  intro hx
  obtain ⟨i, hi, rfl⟩ := List.getElem_of_mem hx
  unfold rfind at h
  have := List.find?_eq_none.mp h i (by simpa using hi)
  simp [List.getElem?_eq_getElem hi] at this

/-- `delete_from_heap` takes out one copy of `x` when there is one, and nothing otherwise. -/
theorem count_deleteFromHeap (l : List α) (x a : α) :
    (deleteFromHeap K lt l x).count a = l.count a - (if a = x ∧ x ∈ l then 1 else 0) := by
  unfold deleteFromHeap
  split
  · rename_i i hr
    obtain ⟨hi, hx⟩ := rfind_spec hr
    have hc := (removeAt_perm K lt l hi).count_eq a
    rw [hx] at hc
    have hxl : x ∈ l := hx ▸ List.getElem_mem hi
    by_cases hax : a = x
    · subst hax
      rw [List.count_cons_self] at hc
      simp only [hxl, and_self, if_true]
      omega
    · rw [List.count_cons_of_ne hax] at hc
      simp [hax, hc]
  · rename_i hr
    simp [rfind_none hr]

/-- `delete_from_heap` takes out one copy of `x`, as `List.erase` does. -/
theorem deleteFromHeap_perm (l : List α) (x : α) :
    List.Perm (deleteFromHeap K lt l x) (l.erase x) := by
  rw [List.perm_iff_count]
  intro a
  rw [count_deleteFromHeap, List.count_erase]
  by_cases hax : a = x
  · subst hax
    by_cases hx : a ∈ l <;> simp [hx, List.count_eq_zero_of_not_mem]
  · simp [hax, Ne.symm hax]

end Perm

end IndIntruHeap

end DmclockServer
