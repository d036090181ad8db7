import DmclockServer.Ladder
import Mathlib.Algebra.Order.BigOperators.Group.List

/-!
# Emptiness and the request count

`empty()` reads only the tops of `resv_heap`, `burst_heap` and `best_heap`, and `request_count()`
sums the queues of their members: one heap of each class. When every client is in the heaps of
its class and every heap has the heap property, both say what the client map says: `empty()`
holds iff `request_count()` is 0, iff no client has a queued request
(`empty_iff_requestCount_eq_zero`). The count needs only the membership
(`requestCount_eq_zero_iff`); `empty()` needs the order too, since a client with a request sorts
above every client without one (`empty_iff_noPendingRequest`).

Without the invariants they part: after `pop_process_request` repairs the heaps of a migrated
client's stale class, `empty()` answers true while a client has a request
(`empty_with_pending_request`).
-/

namespace DmclockServer

namespace HeapSel

theorem inheritFrom_mem_ofClass (cls : ClientType) : inheritFrom cls ∈ ofClass cls := by
  cases cls <;> simp [inheritFrom, ofClass]

end HeapSel

namespace PriorityQueueBase

variable {C R : Type} [LinearOrder C] (s : PriorityQueueBase C R)

/-- `heap.empty() || !heap.top().has_request()`. -/
def topIdle (h : HeapSel) : Bool := (s.topRec h).all fun r => !r.hasRequest

/-- `empty()`. -/
def empty : Bool := s.topIdle .resv && s.topIdle .burst && s.topIdle .best

/-- The `request_count()` of the members of one heap, summed. -/
def heapRequestCount (h : HeapSel) : ℕ :=
  ((s.heaps h).map fun c => ((s.findClient c).map (·.requestCount)).getD 0).sum

/-- `request_count()`. -/
def requestCount : ℕ :=
  s.heapRequestCount .resv + s.heapRequestCount .burst + s.heapRequestCount .best

/-- No client of the client map has a queued request. -/
def NoPendingRequest : Prop := ∀ c r, s.findClient c = some r → r.requests = []

variable {s}

theorem topIdle_eq_true_iff {h : HeapSel} :
    s.topIdle h = true ↔ ∀ r, s.topRec h = some r → r.requests = [] := by
  unfold topIdle
  cases s.topRec h <;> simp [ClientRec.hasRequest]

theorem heapRequestCount_eq_zero_iff {h : HeapSel} :
    s.heapRequestCount h = 0 ↔ ∀ c ∈ s.heaps h, ∀ r, s.findClient c = some r → r.requests = [] := by
  simp only [heapRequestCount, List.sum_eq_zero_iff, List.forall_mem_map]
  refine forall₂_congr fun c _ => ?_
  cases s.findClient c <;> simp [ClientRec.requestCount]

/-- `request_count()` sums one heap of each class, so with every client in the heaps of its
class it counts every queued request of the client map. -/
theorem requestCount_eq_zero_iff (hcm : s.ClassMembership) :
    s.requestCount = 0 ↔ s.NoPendingRequest := by
  constructor
  · intro h0 c r hr
    have hz : s.heapRequestCount (HeapSel.inheritFrom r.info.clientType) = 0 := by
      unfold requestCount at h0
      cases r.info.clientType <;> simp only [HeapSel.inheritFrom] <;> omega
    exact heapRequestCount_eq_zero_iff.mp hz c
      ((hcm.mem_heaps_iff hr _).mpr (HeapSel.inheritFrom_mem_ofClass _)) r hr
  · intro hp
    have hz (h : HeapSel) : s.heapRequestCount h = 0 :=
      heapRequestCount_eq_zero_iff.mpr fun c _ r hr => hp c r hr
    simp [requestCount, hz]

/-- A top is a client of the map, so `empty()` holds when no client has a request. -/
theorem empty_of_noPendingRequest (hp : s.NoPendingRequest) : s.empty = true := by
  have ht (h : HeapSel) : s.topIdle h = true := topIdle_eq_true_iff.mpr fun r hr => by
    obtain ⟨c, -, hc⟩ := Option.bind_eq_some.mp hr
    exact hp c r hc
  simp [empty, ht]

/-- With the invariants, a client with a request puts a client with a request at the top of the
heap of its class that `empty()` reads: no request sorts last. -/
theorem noPendingRequest_of_empty (hi : s.LadderInv) (he : s.empty = true) :
    s.NoPendingRequest := by
  intro c r hr
  obtain ⟨-, r₀, -, -, htop, -, hle⟩ :=
    top_le_of_member hi hr (HeapSel.inheritFrom_mem_ofClass r.info.clientType)
  have hidle : s.topIdle (HeapSel.inheritFrom r.info.clientType) = true := by
    simp only [empty, Bool.and_eq_true] at he
    cases r.info.clientType <;> simp [HeapSel.inheritFrom, he]
  have h₀ : r₀.nextRequest = none :=
    ClientRec.nextRequest_eq_none_iff.mpr (topIdle_eq_true_iff.mp hidle r₀ htop)
  rw [ClientRec.compareKey_eq_top.mpr h₀, top_le_iff, ClientRec.compareKey_eq_top] at hle
  exact ClientRec.nextRequest_eq_none_iff.mp hle

theorem empty_iff_noPendingRequest (hi : s.LadderInv) : s.empty = true ↔ s.NoPendingRequest :=
  ⟨noPendingRequest_of_empty hi, empty_of_noPendingRequest⟩

/-- **The two observers agree with the client map.** When every client is in the heaps of its
class and every heap has the heap property, `empty()` holds iff `request_count()` is 0, iff no
client has a queued request. -/
theorem empty_iff_requestCount_eq_zero (hi : s.LadderInv) :
    (s.empty = true ↔ s.requestCount = 0) ∧ (s.requestCount = 0 ↔ s.NoPendingRequest) :=
  ⟨(empty_iff_noPendingRequest hi).trans (requestCount_eq_zero_iff hi.classMembership).symm,
    requestCount_eq_zero_iff hi.classMembership⟩

section Runs

attribute [local semireducible] Rat.add Rat.mul Rat.inv Rat.sub

/-- The run of `popProcessRequest_breaks_heapsOrdered`: client 1 migrates from B into R at the
roll-over at 1 and is served from `resv_heap`, whose repair is skipped. Client 1, with its queue
now empty, stays at the top of `resv_heap` above client 2, which still has request 201, and
`burst_heap` and `best_heap` are empty: `empty()` answers true while `request_count()` is 1. -/
theorem empty_with_pending_request :
    ∃ (s₀ : PriorityQueueBase ℕ ℕ) (outs : List (Out ℕ ℕ)) (s : PriorityQueueBase ℕ ℕ),
      init 2 600 900 360 false 0 10 1 = .ok s₀ ∧
      s₀.run
        [.addRequest (fun c => if c = 1 then ⟨0, 1, 0, .B⟩ else ⟨1, 0, 0, .R⟩) 100 1 {} 0,
        .addRequest (fun c => if c = 1 then ⟨0, 1, 0, .B⟩ else ⟨1, 0, 0, .R⟩) 200 2 {} 0,
        .addRequest (fun c => if c = 1 then ⟨0, 1, 0, .B⟩ else ⟨1, 0, 0, .R⟩) 201 2 {} 0,
        .pullRequest (fun _ => ⟨1, 0, 0, .R⟩) 1, .pullRequest (fun _ => ⟨1, 0, 0, .R⟩) 1] =
        .ok (outs, s) ∧
      s.empty = true ∧ s.requestCount = 1 ∧
      (s.findClient 2).map (·.requests.map (·.request)) = some [201] :=
  ⟨_, _, _, rfl, rfl, rfl, rfl, rfl⟩

end Runs

end PriorityQueueBase

end DmclockServer
