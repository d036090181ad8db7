import DmclockServer.Compare
import DmclockServer.Heap

/-!
# The scheduler state

`PriorityQueueBase`: the client map, the compensated client infos, the seven heaps and the global
counters. The client map is a list of records kept in the order of their ids (`std::map`); each
heap is the array of an `IndIntruHeap` holding client ids, and its comparator reads the records
through the map. A client id missing from the map compares as a client with no request.

The telemetry of the window roll-over (`printScheduling`, `client_no`, the output files) and the
performance counters (`reserv_sched_count` and its siblings) are written but never read, and are
left out.
-/

namespace DmclockServer

/-- The seven heaps of `PriorityQueueBase`. -/
inductive HeapSel where
  | resv
  | deltar
  | rLimit
  | limit
  | burst
  | best
  | bestLimit
  deriving DecidableEq, Repr

namespace HeapSel

/-- The `tag_field` of each heap's `ClientCompare`. -/
def tagField : HeapSel → TagField
  | resv => .reservation
  | deltar | burst | best => .proportion
  | rLimit | limit | bestLimit => .limit

/-- The `ready_opt` of each heap's `ClientCompare`. -/
def readyOpt : HeapSel → ReadyOption
  | resv => .ignore
  | deltar | burst | best => .raises
  | rLimit | limit | bestLimit => .lowers

/-- The `use_prop_delta` of each heap's `ClientCompare`. -/
def usePropDelta : HeapSel → Bool
  | deltar | burst | best => true
  | _ => false

/-- The heaps a client of each class belongs to, in the order `do_add_request` pushes it. -/
def ofClass : ClientType → List HeapSel
  | .R => [resv, rLimit, deltar]
  | .B => [limit, burst]
  | .A | .O => [best, bestLimit]

/-- The heap whose top a client migrating into a class inherits its tags from. -/
def inheritFrom : ClientType → HeapSel
  | .R => resv
  | .B => burst
  | _ => best

end HeapSel

/-- `PriorityQueueBase`. `branching` is the template argument `B`; the durations are in
milliseconds and the clean mark points pair a time in seconds with a tick. -/
structure PriorityQueueBase (C R : Type) where
  clientMap : List (ClientRec C R)
  compensatedClientMap : List (C × ClientInfo)
  heaps : HeapSel → List C
  branching : ℕ
  allowLimitBreak : Bool
  anticipationTimeout : ℚ
  tick : ℕ
  idleAge : ℤ
  eraseAge : ℤ
  checkTime : ℤ
  cleanMarkPoints : List (ℚ × ℕ)
  systemCapacity : ℚ
  winStart : ℚ
  winSize : ℚ
  totalWgt : ℚ
  /-- Not a member of the source: set once `delete_from_heap` is asked for a client that is not
  in the heap, where the source's `remove(rfind(c))` removes at `end()`, which is undefined
  behaviour. The model deletes nothing there and goes on. -/
  undefined : Bool

namespace PriorityQueueBase

variable {C R : Type} [DecidableEq C] (s : PriorityQueueBase C R)

/-! ## The client map -/

/-- `client_map.find(c)`. -/
def findClient (c : C) : Option (ClientRec C R) := s.clientMap.find? (·.client = c)

/-- Apply `f` to the record of `c`, as a method call through the client's shared pointer. -/
def modifyClient (c : C) (f : ClientRec C R → ClientRec C R) : PriorityQueueBase C R :=
  { s with clientMap := s.clientMap.map (fun r => if r.client = c then f r else r) }

/-- `compensated_client_map[c]`. -/
def compensated (c : C) : Option ClientInfo :=
  (s.compensatedClientMap.find? (·.1 = c)).map (·.2)

/-- `compensated_client_map[c] = info`. -/
def setCompensated (c : C) (info : ClientInfo) : PriorityQueueBase C R :=
  { s with compensatedClientMap := (c, info) :: s.compensatedClientMap.filter (·.1 ≠ c) }

/-! ## The heaps -/

/-- The comparator of heap `h`: `ClientCompare` on the two clients' records. -/
def heapLt (h : HeapSel) (a b : C) : Bool :=
  match s.findClient a, s.findClient b with
  | some ra, some rb => clientCompare h.tagField h.readyOpt h.usePropDelta ra rb
  | some ra, none => ra.hasRequest
  | none, _ => false

/-- The key heap `h` orders its members by. -/
def heapKey (h : HeapSel) (a : C) : WithTop (ℕ ×ₗ Dbl) :=
  match s.findClient a with
  | some ra => compareKey h.tagField h.readyOpt h.usePropDelta ra
  | none => ⊤

theorem heapLt_eq_ltOf (h : HeapSel) : s.heapLt h = IndIntruHeap.ltOf (s.heapKey h) := by
  funext a b
  simp only [heapLt, IndIntruHeap.ltOf, heapKey]
  split
  · rename_i ra rb ha hb
    simp [ha, hb, clientCompare_eq_ltOf, IndIntruHeap.ltOf]
  · rename_i ra ha hb
    simp only [ha, hb, compareKey, ClientRec.hasRequest, ClientRec.nextRequest]
    cases ra.requests <;> simp
  · rename_i ha
    simp [ha]

/-- Replace the array of heap `h`. -/
def setHeap (h : HeapSel) (l : List C) : PriorityQueueBase C R :=
  { s with heaps := fun h' => if h' = h then l else s.heaps h' }

/-- `heap.push(c)`. -/
def heapPush (h : HeapSel) (c : C) : PriorityQueueBase C R :=
  s.setHeap h (IndIntruHeap.push s.branching (s.heapLt h) (s.heaps h) c)

/-- `heap.adjust(c)`. -/
def heapAdjust (h : HeapSel) (c : C) : PriorityQueueBase C R :=
  s.setHeap h (IndIntruHeap.adjust s.branching (s.heapLt h) (s.heaps h) c)

/-- `heap.promote(c)`. -/
def heapPromote (h : HeapSel) (c : C) : PriorityQueueBase C R :=
  s.setHeap h (IndIntruHeap.promote s.branching (s.heapLt h) (s.heaps h) c)

/-- `heap.demote(c)`. -/
def heapDemote (h : HeapSel) (c : C) : PriorityQueueBase C R :=
  s.setHeap h (IndIntruHeap.demote s.branching (s.heapLt h) (s.heaps h) c)

/-- `delete_from_heap(c, heap)`, which records in `undefined` a client missing from the heap. -/
def heapDelete (h : HeapSel) (c : C) : PriorityQueueBase C R :=
  { s.setHeap h (IndIntruHeap.deleteFromHeap s.branching (s.heapLt h) (s.heaps h) c) with
    undefined := s.undefined || decide (c ∉ s.heaps h) }

/-- `heap.top()`, when the heap is not empty. -/
def heapTop (h : HeapSel) : Option C := (s.heaps h).head?

/-- The record at the top of heap `h`. -/
def topRec (h : HeapSel) : Option (ClientRec C R) := (s.heapTop h).bind s.findClient

/-- Apply one heap operation to each heap of a list, in order. -/
def forHeaps (hs : List HeapSel) (op : PriorityQueueBase C R → HeapSel → PriorityQueueBase C R) :
    PriorityQueueBase C R :=
  hs.foldl op s

/-- The class switch that `do_add_request` and `remove_by_*` repeat: `adjust` in every heap of
the class. -/
def adjustClass (cls : ClientType) (c : C) : PriorityQueueBase C R :=
  s.forHeaps (HeapSel.ofClass cls) (fun s h => s.heapAdjust h c)

/-- `delete_from_heaps`. -/
def deleteFromHeaps (c : ClientRec C R) : PriorityQueueBase C R :=
  s.forHeaps (HeapSel.ofClass c.info.clientType) (fun s h => s.heapDelete h c.client)

/-! ## Weights and resources -/

/-- `add_total_wgt_and_update_client_res(wgt)`: add to `total_wgt`, then set every client's
`resource` to `system_capacity * weight * win_size / total_wgt`. -/
def addTotalWgtAndUpdateClientRes (wgt : ℚ) : PriorityQueueBase C R :=
  let total := s.totalWgt + wgt
  { s with
    totalWgt := total
    clientMap := s.clientMap.map (fun r =>
      { r with resource := Dbl.quot (s.systemCapacity * r.info.weight * s.winSize) total }) }

end PriorityQueueBase

/-- `std::chrono::duration_cast<milliseconds>` of a duration given in seconds: truncation towards
zero. -/
def durationCastMs (seconds : ℚ) : ℤ := truncQ (seconds * 1000)

/-- The common constructor of `PriorityQueueBase`, with its two assertions on the durations as
given. The convenience constructors pass `system_capacity = 8000` and `win_size = 30`. -/
def PriorityQueueBase.init {C R : Type} (branching : ℕ) (idleAge eraseAge checkTime : ℚ)
    (allowLimitBreak : Bool) (anticipationTimeout systemCapacity winSize : ℚ) :
    Except String (PriorityQueueBase C R) :=
  if ¬ idleAge ≤ eraseAge then .error "assert(_erase_age >= _idle_age)"
  else if ¬ checkTime < idleAge then .error "assert(_check_time < _idle_age)"
  else .ok
    { clientMap := [], compensatedClientMap := [], heaps := fun _ => [], branching := branching,
      allowLimitBreak := allowLimitBreak, anticipationTimeout := anticipationTimeout, tick := 0,
      idleAge := durationCastMs idleAge, eraseAge := durationCastMs eraseAge,
      checkTime := durationCastMs checkTime, cleanMarkPoints := [],
      systemCapacity := systemCapacity, winStart := 0, winSize := winSize, totalWgt := 0,
      undefined := false }

theorem PriorityQueueBase.init_eq_ok {C R : Type} {s : PriorityQueueBase C R} {b : ℕ}
    {idleAge eraseAge checkTime : ℚ} {alb : Bool} {at' cap win : ℚ}
    (h : init b idleAge eraseAge checkTime alb at' cap win = .ok s) :
    s.clientMap = [] ∧ s.compensatedClientMap = [] ∧ s.heaps = (fun _ => []) ∧ s.totalWgt = 0 := by
  unfold init at h
  split at h
  · cases h
  · split at h
    · cases h
    · cases h; exact ⟨rfl, rfl, rfl, rfl⟩

end DmclockServer
