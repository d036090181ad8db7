import DmclockServer.Ops

/-!
# The scheduler's invariants

The invariants the spec states over the reachable states of `PriorityQueueBase`:

* `ClassMembership`: every client is in exactly the heaps of its class, once in each, and every
  heap member is a client (I3);
* `HeapsOrdered`: the seven heaps have the heap property under their comparators;
* `WeightsTotal`: `total_wgt` is the sum of the weights of the clients not of class O (I2);
* `CompensatedCurrent`: an R client's compensated info is its current info with its compensation
  added to the reservation;
* `ResourcesCurrent`: a client not of class O has the per-window budget its weight and the current
  `total_wgt` give.

All five hold of the constructor's state (`init_invariants`). None is kept by every operation:
after each one stands a run from the constructor's state that ends in a state breaking it.

Rational arithmetic is irreducible for the elaborator; the section holding the runs makes it
semireducible so that `decide` can evaluate them.
-/

namespace DmclockServer

namespace HeapSel

/-- The seven heaps. -/
def all : List HeapSel := [resv, deltar, rLimit, limit, burst, best, bestLimit]

@[simp] theorem mem_all (h : HeapSel) : h ∈ all := by cases h <;> simp [all]

end HeapSel

namespace PriorityQueueBase

variable {C R : Type} [LinearOrder C] (s : PriorityQueueBase C R)

attribute [local semireducible] Rat.add Rat.mul Rat.inv Rat.sub

/-- Heap membership by class (I3). -/
def ClassMembership : Prop :=
  (∀ r ∈ s.clientMap, ∀ h ∈ HeapSel.all,
    (s.heaps h).count r.client = if h ∈ HeapSel.ofClass r.info.clientType then 1 else 0) ∧
  ∀ h ∈ HeapSel.all, ∀ c ∈ s.heaps h, c ∈ s.clientMap.map (·.client)

instance : Decidable s.ClassMembership := inferInstanceAs (Decidable (_ ∧ _))

/-- `update_client_info` installs a new class without moving the client between heaps: an R client
switched to class B stays in the R heaps. -/
theorem updateClientInfo_breaks_classMembership :
    ∃ (s₀ : PriorityQueueBase ℕ ℕ) (outs : List (Out ℕ ℕ)) (s : PriorityQueueBase ℕ ℕ),
      init 2 600 900 360 false 0 10 1 = .ok s₀ ∧
      s₀.run [.addRequest (fun _ => ⟨1, 1, 0, .R⟩) 100 1 {} 0,
        .updateClientInfo (fun _ => ⟨0, 1, 0, .B⟩) 1] = .ok (outs, s) ∧
      ¬ s.ClassMembership :=
  ⟨_, _, _, rfl, rfl, by decide⟩

/-- Every heap has the heap property under its comparator. -/
def HeapsOrdered : Prop := ∀ h, IndIntruHeap.Ordered s.branching (s.heapKey h) (s.heaps h)

instance : Decidable s.HeapsOrdered :=
  decidable_of_iff (∀ h ∈ HeapSel.all, IndIntruHeap.Ordered s.branching (s.heapKey h) (s.heaps h))
    ⟨fun H h => H h (HeapSel.mem_all h), fun H h _ => H h⟩

/-- A client that migrates into class R at a roll-over keeps the compensated info of its old
class, and `pop_process_request` repairs the heaps of the class `client_info_wrapper` reports:
client 1, created as B, is served from `resv_heap` and its emptied record stays above client 2,
which has a request. -/
theorem popProcessRequest_breaks_heapsOrdered :
    ∃ (s₀ : PriorityQueueBase ℕ ℕ) (outs : List (Out ℕ ℕ)) (s : PriorityQueueBase ℕ ℕ),
      init 2 600 900 360 false 0 10 1 = .ok s₀ ∧
      s₀.run
        [.addRequest (fun c => if c = 1 then ⟨0, 1, 0, .B⟩ else ⟨1, 0, 0, .R⟩) 100 1 {} 0,
        .addRequest (fun c => if c = 1 then ⟨0, 1, 0, .B⟩ else ⟨1, 0, 0, .R⟩) 200 2 {} 0,
        .addRequest (fun c => if c = 1 then ⟨0, 1, 0, .B⟩ else ⟨1, 0, 0, .R⟩) 201 2 {} 0,
        .pullRequest (fun _ => ⟨1, 0, 0, .R⟩) 1, .pullRequest (fun _ => ⟨1, 0, 0, .R⟩) 1] =
        .ok (outs, s) ∧
      ¬ s.HeapsOrdered :=
  ⟨_, _, _, rfl, rfl, fun h => absurd (h .resv 1 2 1 (by decide) (by decide) (by decide))
    (by decide)⟩

/-- `total_wgt` counts the weights of the clients not of class O (I2). -/
def WeightsTotal : Prop :=
  s.totalWgt = ((s.clientMap.filter (·.info.clientType ≠ .O)).map (·.info.weight)).sum

instance : Decidable s.WeightsTotal := inferInstanceAs (Decidable (_ = _))

/-- `remove_by_client` subtracts the client's weight while the client stays in the map. -/
theorem removeByClient_breaks_weightsTotal :
    ∃ (s₀ : PriorityQueueBase ℕ ℕ) (outs : List (Out ℕ ℕ)) (s : PriorityQueueBase ℕ ℕ),
      init 2 600 900 360 false 0 10 1 = .ok s₀ ∧
      s₀.run [.addRequest (fun _ => ⟨0, 1, 0, .B⟩) 100 1 {} 0, .removeByClient 1 false] =
        .ok (outs, s) ∧
      ¬ s.WeightsTotal :=
  ⟨_, _, _, rfl, rfl, by decide⟩

/-- An R client's compensated info is its current info with the compensation added to the
reservation. -/
def CompensatedCurrent : Prop :=
  ∀ r ∈ s.clientMap, r.info.clientType = .R →
    s.compensated r.client =
      some ⟨r.info.reservation + r.rCompensation, r.info.weight, r.info.limit, .R⟩

instance : Decidable s.CompensatedCurrent :=
  inferInstanceAs (Decidable (∀ r ∈ s.clientMap, _))

/-- A reservation raised by the callback is installed at a roll-over, but the compensated info is
rebuilt only for a client served at least 80% of its reservation. -/
theorem rollover_keeps_stale_compensated :
    ∃ (s₀ : PriorityQueueBase ℕ ℕ) (outs : List (Out ℕ ℕ)) (s : PriorityQueueBase ℕ ℕ),
      init 2 600 900 360 false 0 10 1 = .ok s₀ ∧
      s₀.run [.addRequest (fun _ => ⟨1, 1, 0, .R⟩) 100 1 {} 0,
        .pullRequest (fun _ => ⟨2, 1, 0, .R⟩) 1] = .ok (outs, s) ∧
      ¬ s.CompensatedCurrent :=
  ⟨_, _, _, rfl, rfl, by decide⟩

/-- A client not of class O has the resource `add_total_wgt_and_update_client_res` gives it:
`system_capacity * weight * win_size / total_wgt`, with its current weight and `total_wgt`. -/
def ResourcesCurrent : Prop :=
  ∀ r ∈ s.clientMap, r.info.clientType ≠ .O →
    r.resource = Dbl.quot (s.systemCapacity * r.info.weight * s.winSize) s.totalWgt

instance : Decidable s.ResourcesCurrent :=
  inferInstanceAs (Decidable (∀ r ∈ s.clientMap, _))

/-- `update_client_infos` installs the callback's infos without updating `total_wgt` and the
resources, which `update_client_info` does: client 1's weight becomes 3 and its resource stays
`10 * 1 * 1 / 2 = 5`, where its weight and `total_wgt` give `10 * 3 * 1 / 2 = 15`. -/
theorem updateClientInfos_breaks_resourcesCurrent :
    ∃ (s₀ : PriorityQueueBase ℕ ℕ) (outs : List (Out ℕ ℕ)) (s : PriorityQueueBase ℕ ℕ),
      init 2 600 900 360 false 0 10 1 = .ok s₀ ∧
      s₀.run [.addRequest (fun _ => ⟨0, 1, 0, .B⟩) 100 1 {} 0,
        .addRequest (fun _ => ⟨0, 1, 0, .B⟩) 200 2 {} 0,
        .updateClientInfos (fun c => if c = 1 then ⟨0, 3, 0, .B⟩ else ⟨0, 1, 0, .B⟩)] =
        .ok (outs, s) ∧
      (s.findClient 1).map (·.resource) = some (some (.fin 5)) ∧ s.totalWgt = 2 ∧
      ¬ s.ResourcesCurrent :=
  ⟨_, _, _, rfl, rfl, rfl, rfl, by decide⟩

variable {s}

/-- The constructor's state has all five invariants. -/
theorem init_invariants {b : ℕ} {idleAge eraseAge checkTime : ℚ} {alb : Bool}
    {at' cap win : ℚ} (h : init b idleAge eraseAge checkTime alb at' cap win = .ok s) :
    s.ClassMembership ∧ s.HeapsOrdered ∧ s.WeightsTotal ∧ s.CompensatedCurrent ∧
      s.ResourcesCurrent := by
  obtain ⟨hm, -, hh, ht⟩ := init_eq_ok h
  refine ⟨⟨by simp [hm], by simp [hh]⟩, fun k j a b _ ha => ?_, by simp [WeightsTotal, hm, ht],
    by simp [CompensatedCurrent, hm], by simp [ResourcesCurrent, hm]⟩
  simp [hh] at ha

end PriorityQueueBase

end DmclockServer
