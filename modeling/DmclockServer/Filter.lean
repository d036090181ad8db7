import Mathlib.Data.List.Basic
import DmclockServer.Client

/-!
# The two loops of the request filter

`remove_by_req_filter_fw` walks a client's queue with a forward iterator, taking the iterator that
`erase` returns after a removal; `remove_by_req_filter_bw` walks it with a reverse iterator rebuilt
from that iterator. Both are one pass of the filter over the queue (`filterPass`), in list order for
the first and over the reversed queue for the second (`removeByReqFilterFwLoop_eq`,
`removeByReqFilterBwLoop_eq`):

* the filter is called once on each request, its state threaded from call to call
  (`filterPass_logCalls`);
* the requests it accepts leave the queue and the others keep their order;
* the flag says whether any request left (`filterPass_flag_iff`).

A filter without state leaves the same queue either way (`filterPass_stateless`).
-/

namespace DmclockServer

namespace ClientRec

variable {C R σ : Type} (filter : σ → R → Bool × σ)

/-- One pass of the filter over a queue, in list order: each request is handed to the filter once,
its state threaded from call to call; the requests it accepts are dropped, the others kept in
order, and the flag says whether any was dropped. -/
def filterPass : σ → List (ClientReq C R) → List (ClientReq C R) × Bool × σ
  | s, [] => ([], false, s)
  | s, r :: l =>
    let res := filterPass (filter s r.request).2 l
    (if (filter s r.request).1 then res.1 else r :: res.1, (filter s r.request).1 || res.2.1,
      res.2.2)

/-- The filter, also recording each request it is called with. -/
def logCalls (st : σ × List R) (r : R) : Bool × σ × List R :=
  ((filter st.1 r).1, (filter st.1 r).2, st.2 ++ [r])

/-! ## The pass -/

section Pass

variable (s : σ) (l : List (ClientReq C R))

/-- The pass calls the filter on each request of the queue once, in list order, and a log of the
calls changes nothing else. -/
theorem filterPass_logCalls (log : List R) :
    filterPass (logCalls filter) (s, log) l =
      ((filterPass filter s l).1, (filterPass filter s l).2.1, (filterPass filter s l).2.2,
        log ++ l.map (·.request)) := by
  induction l generalizing s log with
  | nil => simp [filterPass]
  | cons r l ih => simp [filterPass, logCalls, ih]

theorem filterPass_length_le : (filterPass filter s l).1.length ≤ l.length := by
  induction l generalizing s with
  | nil => simp [filterPass]
  | cons r l ih =>
    have := ih (filter s r.request).2
    simp only [filterPass]
    split <;> simp only [List.length_cons] <;> omega

/-- The flag is set exactly when a request was dropped. -/
theorem filterPass_flag_iff :
    (filterPass filter s l).2.1 = true ↔ (filterPass filter s l).1.length < l.length := by
  induction l generalizing s with
  | nil => simp [filterPass]
  | cons r l ih =>
    have hle := filterPass_length_le filter (filter s r.request).2 l
    cases hb : (filter s r.request).1
    · simp only [filterPass, hb, Bool.false_or, Bool.false_eq_true, if_false, List.length_cons, ih,
        Nat.add_lt_add_iff_right]
    · simp only [filterPass, hb, if_true, Bool.true_or, true_iff, List.length_cons]; omega

/-- A filter whose state never changes drops the requests it accepts from its initial state. -/
theorem filterPass_stateless (h : ∀ st r, (filter st r).2 = st) :
    (filterPass filter s l).1 = l.filter (fun r => !(filter s r.request).1) := by
  induction l with
  | nil => rfl
  | cons r l ih =>
    simp only [filterPass, h, ih, List.filter_cons]
    split <;> simp [*]

/-- The pass keeps requests of the queue, in their order. -/
theorem filterPass_sublist : (filterPass filter s l).1.Sublist l := by
  induction l generalizing s with
  | nil => simp [filterPass]
  | cons r l ih =>
    simp only [filterPass]
    split
    · exact (ih _).cons r
    · exact (ih _).cons₂ r

end Pass

/-! ## The loops -/

/-- The forward loop at slot `pre.length`, with `pre` kept and `rest` still to visit, finishes the
pass over `rest`, given fuel for every request of `rest`. -/
theorem removeByReqFilterFwLoop_eq {fuel : ℕ} (s : σ) (pre rest : List (ClientReq C R))
    (any : Bool) (h : rest.length ≤ fuel) :
    removeByReqFilterFwLoop filter fuel pre.length s (pre ++ rest) any =
      (pre ++ (filterPass filter s rest).1, any || (filterPass filter s rest).2.1,
        (filterPass filter s rest).2.2) := by
  induction fuel generalizing s pre rest any with
  | zero =>
    obtain rfl : rest = [] := List.eq_nil_of_length_eq_zero (Nat.le_zero.mp h)
    simp [removeByReqFilterFwLoop, filterPass]
  | succ n ih =>
    cases rest with
    | nil =>
      simp [removeByReqFilterFwLoop, filterPass, List.getElem?_eq_none (le_refl pre.length)]
    | cons r rest =>
      have hr : (pre ++ r :: rest)[pre.length]? = some r := by
        simp [List.getElem?_append_right (le_refl _)]
      have hn : rest.length ≤ n := by simpa using h
      simp only [removeByReqFilterFwLoop, hr]
      split
      · rename_i hf
        rw [List.eraseIdx_append_of_length_le (le_refl _), Nat.sub_self, List.eraseIdx_cons_zero,
          ih _ _ _ _ hn]
        simp [filterPass, hf]
      · rename_i hf
        have e := ih (filter s r.request).2 (pre ++ [r]) rest any hn
        simp only [List.length_append, List.length_singleton, List.append_assoc,
          List.singleton_append] at e
        rw [e]
        simp [filterPass, hf]

/-- The backward loop with base `pre.length`, with `pre` still to visit and `suf` kept, finishes
the pass over `pre` from its back. -/
theorem removeByReqFilterBwLoop_eq (s : σ) (pre suf : List (ClientReq C R)) (any : Bool) :
    removeByReqFilterBwLoop filter pre.length s (pre ++ suf) any =
      ((filterPass filter s pre.reverse).1.reverse ++ suf,
        any || (filterPass filter s pre.reverse).2.1, (filterPass filter s pre.reverse).2.2) := by
  induction pre using List.reverseRecOn generalizing s suf any with
  | nil => simp [removeByReqFilterBwLoop, filterPass]
  | append_singleton pre r ih =>
    have hr : (pre ++ [r] ++ suf)[pre.length]? = some r := by
      simp [List.getElem?_append_right (le_refl _)]
    simp only [List.length_append, List.length_singleton, removeByReqFilterBwLoop, hr]
    split
    · rename_i hf
      rw [List.append_assoc, List.eraseIdx_append_of_length_le (le_refl _), Nat.sub_self,
        List.singleton_append, List.eraseIdx_cons_zero, ih]
      simp [filterPass, hf]
    · rename_i hf
      rw [List.append_assoc, List.singleton_append, ih]
      simp [filterPass, hf]

/-! ## `remove_by_req_filter` -/

section Remove

variable (c : ClientRec C R) (s : σ)

/-- `remove_by_req_filter_fw` is the pass over the queue. -/
theorem removeByReqFilter_forward :
    c.removeByReqFilter filter s false =
      ({ c with requests := (filterPass filter s c.requests).1 },
        (filterPass filter s c.requests).2) := by
  have e := removeByReqFilterFwLoop_eq filter s [] c.requests false le_rfl
  simp only [List.length_nil, List.nil_append, Bool.false_or] at e
  simp [removeByReqFilter, e]

/-- `remove_by_req_filter_bw` is the pass over the reversed queue. -/
theorem removeByReqFilter_backward :
    c.removeByReqFilter filter s true =
      ({ c with requests := (filterPass filter s c.requests.reverse).1.reverse },
        (filterPass filter s c.requests.reverse).2) := by
  have e := removeByReqFilterBwLoop_eq filter s c.requests [] false
  simp only [List.append_nil, Bool.false_or] at e
  simp [removeByReqFilter, e]

/-- A pass that removes nothing, either way, leaves the record as it was. -/
theorem removeByReqFilter_eq_self (vb : Bool) (h : (c.removeByReqFilter filter s vb).2.1 = false) :
    (c.removeByReqFilter filter s vb).1 = c := by
  have keep (l : List (ClientReq C R)) (hl : (filterPass filter s l).2.1 = false) :
      (filterPass filter s l).1 = l :=
    (filterPass_sublist filter s l).eq_of_length_le (not_lt.mp fun hlt => by
      rw [← filterPass_flag_iff, hl] at hlt; cases hlt)
  cases vb
  · rw [removeByReqFilter_forward] at h ⊢
    rw [keep _ h]
  · rw [removeByReqFilter_backward] at h ⊢
    rw [keep _ h, List.reverse_reverse]

/-- **Both loops visit every request once.** `remove_by_req_filter_fw` calls the filter once on
each request, front to back, and `remove_by_req_filter_bw` once on each, back to front, its state
threaded through the calls; each drops exactly the requests the filter accepted, keeps the others
in their order, and returns whether it dropped any. A filter without state leaves the same queue
either way. -/
theorem removeByReqFilter_visits_each_once :
    c.removeByReqFilter filter s false =
        ({ c with requests := (filterPass filter s c.requests).1 },
          (filterPass filter s c.requests).2) ∧
      c.removeByReqFilter filter s true =
        ({ c with requests := (filterPass filter s c.requests.reverse).1.reverse },
          (filterPass filter s c.requests.reverse).2) ∧
      (∀ vb log, (c.removeByReqFilter (logCalls filter) (s, log) vb).2.2.2 =
        log ++ (if vb then c.requests.reverse else c.requests).map (·.request)) ∧
      (∀ vb, (c.removeByReqFilter filter s vb).1.requests.Sublist c.requests) ∧
      (∀ vb, (c.removeByReqFilter filter s vb).2.1 = true ↔
        (c.removeByReqFilter filter s vb).1.requests.length < c.requests.length) ∧
      ((∀ st r, (filter st r).2 = st) →
        (c.removeByReqFilter filter s true).1 = (c.removeByReqFilter filter s false).1) := by
  refine ⟨removeByReqFilter_forward filter c s, removeByReqFilter_backward filter c s,
    fun vb log => ?_, fun vb => ?_, fun vb => ?_, fun h => ?_⟩
  · cases vb
    · simp [removeByReqFilter_forward, filterPass_logCalls]
    · simp [removeByReqFilter_backward, filterPass_logCalls]
  · cases vb
    · simpa [removeByReqFilter_forward] using filterPass_sublist filter s c.requests
    · simpa [removeByReqFilter_backward] using
        (filterPass_sublist filter s c.requests.reverse).reverse
  · cases vb
    · simpa [removeByReqFilter_forward] using filterPass_flag_iff filter s c.requests
    · simpa [removeByReqFilter_backward] using filterPass_flag_iff filter s c.requests.reverse
  · simp [removeByReqFilter_forward, removeByReqFilter_backward, filterPass_stateless filter _ _ h,
      List.filter_reverse]

/-- Requests 1 to 4 of client 1 under a stateless filter that takes the even ones: both loops
leave requests 1 and 3. -/
theorem removeByReqFilter_evens_either_way :
    (removeByReqFilter (fun (st : Unit) (r : ℕ) => (decide (r % 2 = 0), st))
        { ClientRec.init (R := ℕ) (1 : ℕ) ⟨0, 1, 0, .B⟩ 0 with
          requests := [1, 2, 3, 4].map fun n => ⟨RequestTag.zero 0, 1, n⟩ } () true).1 =
      (removeByReqFilter (fun (st : Unit) (r : ℕ) => (decide (r % 2 = 0), st))
        { ClientRec.init (R := ℕ) (1 : ℕ) ⟨0, 1, 0, .B⟩ 0 with
          requests := [1, 2, 3, 4].map fun n => ⟨RequestTag.zero 0, 1, n⟩ } () false).1 ∧
    (removeByReqFilter (fun (st : Unit) (r : ℕ) => (decide (r % 2 = 0), st))
        { ClientRec.init (R := ℕ) (1 : ℕ) ⟨0, 1, 0, .B⟩ 0 with
          requests := [1, 2, 3, 4].map fun n => ⟨RequestTag.zero 0, 1, n⟩ }
        () false).1.requests.map (·.request) = [1, 3] :=
  ⟨(removeByReqFilter_visits_each_once _ _ _).2.2.2.2.2 fun _ _ => rfl, by decide⟩

end Remove

end ClientRec

end DmclockServer
