import DmclockServer.AddRequest

/-!
# The dispatch decision and the dispatch

`do_next_request(now)`: the window roll-over (re-fetching every client's info, migrating a client
whose class changed, updating the weights and the R clients' compensation, resetting the counters),
then the dispatch ladder of the spec §4.4: reservations, the `limit_heap` promotion walk and the
burst rule, the `r_limit_heap` walk and the deltar rule, the `best_limit_heap` walk and the
best-effort rule, the limit-break rules, and last the next-call time with its two assertions.

`pop_process_request` commits a dispatch: it pops the head, computes the next head's deferred tag,
reduces the reservation tags after a deltar dispatch, and repairs the heaps of the class that
`client_info_wrapper` reports. `pull_request` joins the two.
-/

namespace DmclockServer

/-- `HeapId`: the heap a dispatch pops from. -/
inductive HeapId where
  | reservation
  | deltar
  | ready
  | burst
  | prop
  | bestEffort
  deriving DecidableEq, Repr

/-- `NextReq`: dispatch from a heap, come back at a time, or nothing to do. -/
inductive NextReq where
  | returning (heapId : HeapId)
  | future (whenReady : Dbl)
  | none
  deriving DecidableEq, Repr

namespace PriorityQueueBase

variable {C R : Type} [LinearOrder C] (s : PriorityQueueBase C R)

/-! ## Window roll-over -/

/-- `move_to_another_heap`: delete the client from the heaps of its current class, inherit the
head tag (when both have a request) and the previous tag of the new class's top, and push and
adjust the client in the heaps of the new class. -/
def moveToAnotherHeap (c : C) (newInfo : ClientInfo) : PriorityQueueBase C R :=
  match s.findClient c with
  | none => s
  | some client =>
    let s := s.deleteFromHeaps client
    let s := match s.topRec (HeapSel.inheritFrom newInfo.clientType) with
      | some top => s.modifyClient c (fun r =>
          let r := match top.nextRequest with
            | some tr => r.setHeadTag tr.tag
            | none => r
          { r with prevTag := top.prevTag })
      | none => s
    let hs := HeapSel.ofClass newInfo.clientType
    (s.forHeaps hs (fun s h => s.heapPush h c)).forHeaps hs (fun s h => s.heapAdjust h c)

/-- The compensation update of an R client served at least 80% of its reservation: add the
truncated shortfall rate to the unsigned `r_compensation` (wrapping), clamp it to
`reservation * 0.1`, and rebuild the compensated info. -/
def compensate (c : C) : PriorityQueueBase C R :=
  match s.findClient c with
  | none => s
  | some client =>
    let comp : ℤ := truncQ ((client.info.reservation * s.winSize - client.r0Counter) / s.winSize)
    let rc : ℕ := (((client.rCompensation : ℤ) + comp) % 2 ^ 32).toNat
    let rc : ℕ := if (rc : ℤ) < 0 then 0
      else if (rc : ℚ) > client.info.reservation * (1 / 10) then
        ⌊client.info.reservation * (1 / 10)⌋₊
      else rc
    (s.modifyClient c (fun r => { r with rCompensation := rc })).setCompensated c
      ⟨client.info.reservation + rc, client.info.weight, client.info.limit, .R⟩

/-- The info update of the roll-over for one client. A changed info (compared by value: the
source compares the pointers `client_info_f` returns) is installed, after migrating the client
when the class changed, and the weight difference is added to `total_wgt`. -/
def installInfo (c : C) (old temp : ClientInfo) : PriorityQueueBase C R :=
  if temp ≠ old then
    let s := if temp.clientType ≠ old.clientType then s.moveToAnotherHeap c temp else s
    let s := s.modifyClient c (fun r => { r with info := temp })
    if temp.weight ≠ old.weight then s.addTotalWgtAndUpdateClientRes (temp.weight - old.weight)
    else s
  else s

/-- The compensation check of the roll-over: an R client served at least 80% of its reservation
in the window is compensated. -/
def checkCompensation (c : C) : PriorityQueueBase C R :=
  match s.findClient c with
  | some client =>
    if client.info.clientType = ClientType.R ∧
        (client.r0Counter : ℚ) ≥ client.info.reservation * s.winSize * (8 / 10) then
      s.compensate c
    else s
  | none => s

/-- The body of the roll-over loop for one client: the info update, the compensation check, and
the reset of the window counters. -/
def rollClient (infoF : C → ClientInfo) (c : C) : PriorityQueueBase C R :=
  match s.findClient c with
  | none => s
  | some client =>
    ((s.installInfo c client.info (infoF c)).checkCompensation c).modifyClient c
      ClientRec.resetCounters

/-- The window roll-over of `do_next_request` (its `try_lock` always succeeds: every caller holds
`data_mtx`). -/
def windowRollover (infoF : C → ClientInfo) (now : ℚ) : PriorityQueueBase C R :=
  let s := { s with winStart := max (s.winStart + s.winSize) now }
  (s.clientMap.map (·.client)).foldl (fun s c => s.rollClient infoF c) s

/-! ## The promotion walks -/

/-- The loop of a promotion walk: while the top of `limitHeap` has a head that is not ready and
whose limit tag has passed, mark it ready, promote the client in `pairHeap` and demote it in
`limitHeap`. -/
def promoteWalkLoop (limitHeap pairHeap : HeapSel) (now : ℚ) :
    ℕ → PriorityQueueBase C R → PriorityQueueBase C R
  | 0, s => s
  | fuel + 1, s =>
    match s.topRec limitHeap with
    | none => s
    | some top =>
      match top.nextRequest with
      | none => s
      | some req =>
        if !req.tag.ready ∧ req.tag.limit ≤ .fin now then
          promoteWalkLoop limitHeap pairHeap now fuel
            (((s.modifyClient top.client (·.setHeadTag { req.tag with ready := true })).heapPromote
              pairHeap top.client).heapDemote limitHeap top.client)
        else s

/-- A promotion walk; each round readies one more member's head, so one round per member and a
last check suffice. -/
def promoteWalk (limitHeap pairHeap : HeapSel) (now : ℚ) : PriorityQueueBase C R :=
  promoteWalkLoop limitHeap pairHeap now ((s.heaps limitHeap).length + 1) s

/-! ## The ladder -/

/-- Rule 1: the top of `resv_heap` has a head whose reservation tag has passed. -/
def reservationRule (now : ℚ) : Option (ClientRec C R) :=
  match s.topRec .resv with
  | some r => match r.head? with
    | some t => if t.reservation ≤ .fin now then some r else none
    | none => none
  | none => none

/-- Rules 3, 5 and 7 check the top of a heap of proportion tags: a head that is ready, with a
finite proportion tag, whose client is within `budget`. -/
def readyRule (h : HeapSel) (budget : ClientRec C R → Bool) : Option (ClientRec C R) :=
  match s.topRec h with
  | some r => match r.head? with
    | some t => if budget r ∧ t.ready ∧ t.proportion < .maxTag then some r else none
    | none => none
  | none => none

/-- Rule 3: the top of `burst_heap` is within its burst budget, ready, with a finite proportion
tag. -/
def burstRule : Option (ClientRec C R) :=
  s.readyRule .burst fun r => Dbl.natLt r.bCounter (Dbl.maxZero r.resource)

/-- Rule 5: the top of `deltar_heap` is within the budget above its reservation, ready, with a
finite proportion tag. -/
def deltarRule : Option (ClientRec C R) :=
  s.readyRule .deltar fun r =>
    Dbl.natLt r.deltarCounter (Dbl.maxZero (Dbl.subQ r.resource (r.info.reservation * s.winSize)))

/-- Rule 7: the top of `best_heap` is ready with a finite proportion tag; it has no budget. -/
def bestRule : Option (ClientRec C R) :=
  s.readyRule .best fun _ => true

/-- The limit-break rules check a top for a head whose given field is finite. -/
def breakRule (h : HeapSel) (field : RequestTag → Dbl) : Option (ClientRec C R) :=
  match s.topRec h with
  | some r => match r.head? with
    | some t => if field t < .maxTag then some r else none
    | none => none
  | none => none

/-- `min_not_0_time`: the smaller of the two, ignoring a `possible` of zero. -/
def minNot0Time (current possible : Dbl) : Dbl :=
  if possible = .fin 0 then current else min current possible

/-- A limit heap's contribution to the next call, with the assertion that its top is not a ready
head with a finite proportion tag. -/
def limitNextCall (h : HeapSel) (nextCall : Dbl) : Except String Dbl :=
  match s.topRec h with
  | some r => match r.head? with
    | some t =>
      if !t.ready ∨ Dbl.maxTag = t.proportion then .ok (minNot0Time nextCall t.limit)
      else .error "assert(!next.tag.ready || max_tag == next.tag.proportion)"
    | none => .ok nextCall
  | none => .ok nextCall

/-- Rule 9: the next call is the least of the top reservation tag and the two limit heaps' top
limit tags, ignoring zeros; `TimeMax`, the largest double, is above every tag the model computes. -/
def nextCall : Except String NextReq := do
  let nextCall := match s.topRec .resv with
    | some r => match r.head? with
      | some t => minNot0Time .maxTag t.reservation
      | none => .maxTag
    | none => .maxTag
  let nextCall ← s.limitNextCall .rLimit nextCall
  let nextCall ← s.limitNextCall .limit nextCall
  pure (if nextCall < .maxTag then .future nextCall else .none)

/-- The limit-break rules, when `allow_limit_break` is set: dispatch from the first of
`burst_heap`, `best_heap`, `deltar_heap` and `resv_heap` whose top has a finite tag. -/
def limitBreak : Option (NextReq × PriorityQueueBase C R) :=
  if s.allowLimitBreak then
    match s.breakRule .burst (·.proportion) with
    | some r => some (.returning .burst, s.modifyClient r.client
        (fun r => { r with bBreakLimitCounter := bump r.bBreakLimitCounter }))
    | none =>
    match s.breakRule .best (·.proportion) with
    | some r => some (.returning .bestEffort, s.modifyClient r.client
        (fun r => { r with beBreakLimitCounter := bump r.beBreakLimitCounter }))
    | none =>
    match s.breakRule .deltar (·.proportion) with
    | some r => some (.returning .deltar, s.modifyClient r.client
        (fun r => { r with deltarBreakLimitCounter := bump r.deltarBreakLimitCounter }))
    | none =>
    match s.breakRule .resv (·.reservation) with
    | some r => some (.returning .reservation, s.modifyClient r.client
        (fun r => { r with r0BreakLimitCounter := bump r.r0BreakLimitCounter }))
    | none => none
  else none

/-- The ladder of `do_next_request`, after the roll-over. -/
def dispatchLadder (now : ℚ) : Except String (NextReq × PriorityQueueBase C R) :=
  match s.reservationRule now with
  | some r => .ok (.returning .reservation,
      s.modifyClient r.client (fun r => { r with r0Counter := bump r.r0Counter }))
  | none =>
  let s := s.promoteWalk .limit .burst now
  match s.burstRule with
  | some r => .ok (.returning .burst,
      s.modifyClient r.client (fun r => { r with bCounter := bump r.bCounter }))
  | none =>
  let s := s.promoteWalk .rLimit .deltar now
  match s.deltarRule with
  | some r => .ok (.returning .deltar,
      s.modifyClient r.client (fun r => { r with deltarCounter := bump r.deltarCounter }))
  | none =>
  let s := s.promoteWalk .bestLimit .best now
  match s.bestRule with
  | some r => .ok (.returning .bestEffort,
      s.modifyClient r.client (fun r => { r with beCounter := bump r.beCounter }))
  | none =>
  match s.limitBreak with
  | some res => .ok res
  | none => (s.nextCall).map (fun n => (n, s))

/-- `do_next_request(now)`. -/
def doNextRequest (infoF : C → ClientInfo) (now : ℚ) :
    Except String (NextReq × PriorityQueueBase C R) :=
  if (s.heaps .resv).isEmpty ∧ (s.heaps .burst).isEmpty ∧ (s.heaps .best).isEmpty then
    .ok (.none, s)
  else
    let s := if now - s.winStart ≥ s.winSize then s.windowRollover infoF now else s
    s.dispatchLadder now

/-! ## Committing a dispatch -/

/-- `reduce_reservation_tags(client)`: take one `reservation_inv` off the client's tags, from the
compensated info for a client of class R (a missing entry is a null pointer), then promote the
client in `resv_heap`. -/
def reduceReservationTags (client : ClientRec C R) : Except String (PriorityQueueBase C R) :=
  let info := if client.info.clientType = .R then s.compensated client.client else some client.info
  match info with
  | some info => .ok ((s.modifyClient client.client
      (·.reduceReservation info.reservationInv)).heapPromote .resv client.client)
  | none => .error "null compensated ClientInfo"

/-- The deferred tag calculation of `pop_process_request`: the new head, if there is one, gets its
tag from the popped request's tag and the info `client_info_wrapper` gives, and the tag is copied
to the previous tag. -/
def tagNewHead (top : ClientRec C R) (tag : RequestTag) : Except String (ClientRec C R) :=
  match top.nextRequest with
  | none => .ok top
  | some nextFirst => do
    let info ← s.clientInfoWrapper top
    let tag ← RequestTag.make tag info top.curDelta top.curRho nextFirst.tag.arrival
      s.anticipationTimeout
    pure ((top.setHeadTag tag).updateReqTag tag s.tick)

/-- The heap repair of `pop_process_request`, in the heaps of the class `cls` that
`client_info_wrapper` reports; after a deltar dispatch the reservation tags are reduced first. -/
def repairHeaps (top : ClientRec C R) (cls : ClientType) (isDelta : Bool) :
    Except String (PriorityQueueBase C R) :=
  let c := top.client
  match cls with
  | .R => (if isDelta then s.reduceReservationTags top else .ok s).map fun s =>
      ((s.heapDemote .resv c).heapDemote .deltar c).heapAdjust .rLimit c
  | .B => .ok ((s.heapDemote .burst c).heapAdjust .limit c)
  | .A | .O => .ok ((s.heapDemote .best c).heapAdjust .bestLimit c)

/-- `pop_process_request(heap, process, now, is_delta)`: the client and request handed to
`process`. -/
def popProcessRequest (h : HeapSel) (isDelta : Bool) :
    Except String ((C × R) × PriorityQueueBase C R) :=
  match s.topRec h with
  | none => .error "pop from a heap whose top has no request"
  | some top =>
    match top.nextRequest with
    | none => .error "pop from a heap whose top has no request"
    | some req => do
      let top' ← s.tagNewHead top.popRequest req.tag
      let s := s.modifyClient top.client (fun _ => top')
      let info ← s.clientInfoWrapper top'
      let s ← s.repairHeaps top' info.clientType isDelta
      pure ((top.client, req.request), s)

end PriorityQueueBase

/-- `PullReq`: nothing, a time to come back, or a dispatched request with its phase. -/
inductive PullReq (C R : Type) where
  | none
  | future (t : Dbl)
  | returning (client : C) (request : R) (phase : PhaseType)
  deriving DecidableEq, Repr

namespace PriorityQueueBase

variable {C R : Type} [LinearOrder C] (s : PriorityQueueBase C R)

/-- `PullPriorityQueue::pull_request(now)`. -/
def pullRequest (infoF : C → ClientInfo) (now : ℚ) :
    Except String (PullReq C R × PriorityQueueBase C R) := do
  let (next, s) ← s.doNextRequest infoF now
  match next with
  | .none => pure (.none, s)
  | .future t => pure (.future t, s)
  | .returning heapId =>
    let pop (h : HeapSel) (isDelta : Bool) (phase : PhaseType) := do
      let ((c, r), s) ← s.popProcessRequest h isDelta
      pure (PullReq.returning c r phase, s)
    match heapId with
    | .reservation => pop .resv false .reservation
    | .deltar => pop .deltar true .priority
    | .burst => pop .burst false .priority
    | .bestEffort => pop .best false .priority
    | _ => .error "assert(false)"

end PriorityQueueBase

end DmclockServer
