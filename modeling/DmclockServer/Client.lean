import DmclockServer.Tag

/-!
# Client records

`ClientReq` and `ClientRec` of `PriorityQueueBase`. A record holds the client's previous tag, its
FIFO of requests (each with its own tag), the per-window counters and the compensation. Records
live in the scheduler's client map; the heaps refer to them by client id, so the record's intrusive
heap slots are not fields here.

The counters are `std::atomic_uint`: an increment wraps at `2^32` (`bump`). The `deltar`,
`dlimit` and `client_type` fields are never read and are left out.
-/

namespace DmclockServer

/-- `ClientReq`: a queued request with its tag. -/
structure ClientReq (C R : Type) where
  tag : RequestTag
  clientId : C
  request : R
  deriving DecidableEq, Repr

/-- `ClientRec`. `resource` is NaN (`none`) until the first recomputation: the constructor leaves
it uninitialised. -/
structure ClientRec (C R : Type) where
  client : C
  prevTag : RequestTag
  requests : List (ClientReq C R)
  propDelta : ℚ
  info : ClientInfo
  idle : Bool
  lastTick : ℕ
  curRho : ℕ
  curDelta : ℕ
  resource : Option Dbl
  deltarCounter : ℕ
  deltarBreakLimitCounter : ℕ
  bCounter : ℕ
  bBreakLimitCounter : ℕ
  r0Counter : ℕ
  r0BreakLimitCounter : ℕ
  beCounter : ℕ
  beBreakLimitCounter : ℕ
  rCompensation : ℕ
  deriving DecidableEq, Repr

/-- `++` on a `std::atomic_uint`. -/
def bump (n : ℕ) : ℕ := (n + 1) % 2 ^ 32

namespace ClientRec

variable {C R : Type}

/-- `ClientRec(client, info, current_tick)`. -/
def init (client : C) (info : ClientInfo) (currentTick : ℕ) : ClientRec C R :=
  { client := client, prevTag := RequestTag.zero 0, requests := [], propDelta := 0, info := info,
    idle := true, lastTick := currentTick, curRho := 1, curDelta := 1, resource := none,
    deltarCounter := 0, deltarBreakLimitCounter := 0, bCounter := 0, bBreakLimitCounter := 0,
    r0Counter := 0, r0BreakLimitCounter := 0, beCounter := 0, beBreakLimitCounter := 0,
    rCompensation := 0 }

/-- `assign_unpinned_tag`: copy `rhs` unless it is a sentinel. -/
def assignUnpinnedTag (lhs rhs : Dbl) : Dbl :=
  if rhs ≠ .maxTag ∧ rhs ≠ .minTag then rhs else lhs

/-- `update_req_tag`. -/
def updateReqTag (c : ClientRec C R) (prev : RequestTag) (tick : ℕ) : ClientRec C R :=
  { c with
    prevTag := { c.prevTag with
      reservation := assignUnpinnedTag c.prevTag.reservation prev.reservation
      limit := assignUnpinnedTag c.prevTag.limit prev.limit
      proportion := assignUnpinnedTag c.prevTag.proportion prev.proportion
      arrival := prev.arrival }
    lastTick := tick }

/-- `add_request`: append to the FIFO. -/
def addRequest (c : ClientRec C R) (tag : RequestTag) (clientId : C) (request : R) :
    ClientRec C R :=
  { c with requests := c.requests ++ [⟨tag, clientId, request⟩] }

/-- `next_request()`: the head of the FIFO. -/
def nextRequest (c : ClientRec C R) : Option (ClientReq C R) := c.requests.head?

/-- `pop_request()`. -/
def popRequest (c : ClientRec C R) : ClientRec C R := { c with requests := c.requests.tail }

/-- `has_request()`. -/
def hasRequest (c : ClientRec C R) : Bool := !c.requests.isEmpty

/-- `request_count()`. -/
def requestCount (c : ClientRec C R) : ℕ := c.requests.length

/-- Replace the head's tag. -/
def setHeadTag (c : ClientRec C R) (t : RequestTag) : ClientRec C R :=
  { c with requests := match c.requests with
    | [] => []
    | r :: rs => { r with tag := t } :: rs }

/-- The head's tag, when there is a head. -/
def head? (c : ClientRec C R) : Option RequestTag := c.nextRequest.map (·.tag)

/-- The effective proportion tag the idle realignment reads from a record: the head's proportion
tag, or the previous one when the queue is empty, plus `prop_delta`. -/
def effectivePropTag (c : ClientRec C R) : Dbl :=
  (match c.nextRequest with
    | some r => r.tag.proportion
    | none => c.prevTag.proportion) + c.propDelta

/-- The record side of `reduce_reservation_tags`: take `d` off the head's reservation tag (only
the head: the later tags are placeholders) and off the previous tag. -/
def reduceReservation (c : ClientRec C R) (d : ℚ) : ClientRec C R :=
  let c := match c.nextRequest with
    | some req => c.setHeadTag { req.tag with reservation := req.tag.reservation - d }
    | none => c
  { c with prevTag := { c.prevTag with reservation := c.prevTag.reservation - d } }

/-- Reset the eight per-window counters. -/
def resetCounters (r : ClientRec C R) : ClientRec C R :=
  { r with
    bCounter := 0
    bBreakLimitCounter := 0
    deltarCounter := 0
    deltarBreakLimitCounter := 0
    r0Counter := 0
    r0BreakLimitCounter := 0
    beCounter := 0
    beBreakLimitCounter := 0 }

@[simp] theorem hasRequest_iff {c : ClientRec C R} : c.hasRequest = true ↔ c.requests ≠ [] := by
  simp [hasRequest]

theorem nextRequest_eq_none_iff {c : ClientRec C R} : c.nextRequest = none ↔ c.requests = [] :=
  List.head?_eq_none_iff

@[simp] theorem requests_setHeadTag (c : ClientRec C R) (t : RequestTag) :
    (c.setHeadTag t).requests.map (·.request) = c.requests.map (·.request) := by
  unfold setHeadTag; split <;> simp_all

@[simp] theorem requests_updateReqTag (c : ClientRec C R) (t : RequestTag) (k : ℕ) :
    (c.updateReqTag t k).requests = c.requests := rfl

/-! ## Filtering the queue

The filter is a `std::function` with state; it is modelled as a state-passing function. -/

section Filter

variable {σ : Type} (filter : σ → R → Bool × σ)

/-- The loop of `remove_by_req_filter_fw`: at slot `i`, erase the request the filter accepts
(`i = requests.erase(i)`) or move on (`++i`). -/
def removeByReqFilterFwLoop : ℕ → ℕ → σ → List (ClientReq C R) → Bool →
    List (ClientReq C R) × Bool × σ
  | 0, _, s, l, any => (l, any, s)
  | fuel + 1, i, s, l, any =>
    match l[i]? with
    | none => (l, any, s)
    | some r =>
      if (filter s r.request).1 then
        removeByReqFilterFwLoop fuel i (filter s r.request).2 (l.eraseIdx i) true
      else removeByReqFilterFwLoop fuel (i + 1) (filter s r.request).2 l any

/-- The loop of `remove_by_req_filter_bw`: a reverse iterator whose base is `b` points at slot
`b - 1`; erasing there (`requests.erase(std::next(i).base())`) and `++i` both move the base to
`b - 1`. -/
def removeByReqFilterBwLoop : ℕ → σ → List (ClientReq C R) → Bool →
    List (ClientReq C R) × Bool × σ
  | 0, s, l, any => (l, any, s)
  | b + 1, s, l, any =>
    match l[b]? with
    | none => (l, any, s)
    | some r =>
      if (filter s r.request).1 then
        removeByReqFilterBwLoop b (filter s r.request).2 (l.eraseIdx b) true
      else removeByReqFilterBwLoop b (filter s r.request).2 l any

/-- `remove_by_req_filter(filter_accum, visit_backwards)`: the new FIFO, whether any request was
removed, and the filter's final state. -/
def removeByReqFilter (c : ClientRec C R) (s : σ) (visitBackwards : Bool) :
    ClientRec C R × Bool × σ :=
  let res := if visitBackwards then
      removeByReqFilterBwLoop filter c.requests.length s c.requests false
    else removeByReqFilterFwLoop filter c.requests.length 0 s c.requests false
  ({ c with requests := res.1 }, res.2.1, res.2.2)

end Filter

end ClientRec

end DmclockServer
