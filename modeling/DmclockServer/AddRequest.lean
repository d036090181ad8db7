import DmclockServer.Queue
import Mathlib.Data.List.Sort

/-!
# Adding a request

`do_add_request` with the default deferred tag calculation: a new client is created and pushed
into the heaps of its class; an idle client is realigned on the lowest proportion tag of the active
clients; only a request that becomes the head gets a real tag, the others a placeholder
`RequestTag(0, 0, 0, time)` that `pop_process_request` replaces.

`client_info_f` is the caller's callback; each operation that consults it takes its current value
as the function `infoF`.
-/

namespace DmclockServer

namespace PriorityQueueBase

variable {C R : Type} [LinearOrder C] (s : PriorityQueueBase C R)

/-- `client_info_wrapper`: the compensated info for a client of class R, its own info otherwise.
A missing compensated entry is the null pointer that `assert(client_info)` rejects. -/
def clientInfoWrapper (client : ClientRec C R) : Except String ClientInfo :=
  if client.info.clientType = .R then
    match s.compensated client.client with
    | some info => .ok info
    | none => .error "assert(client_info)"
  else .ok client.info

/-- `client_map[client_id] = client_rec`: insert a record at the position of its id. -/
def insertClient (r : ClientRec C R) : PriorityQueueBase C R :=
  { s with clientMap := s.clientMap.orderedInsert (fun a b => a.client ≤ b.client) r }

/-- The creation branch of `do_add_request`: push the new record into the heaps of its class,
insert it, record its compensated info, and count its weight unless it is of class O. -/
def createClient (info : ClientInfo) (clientId : C) : PriorityQueueBase C R :=
  let s := s.forHeaps (HeapSel.ofClass info.clientType) (fun s h => s.heapPush h clientId)
  let s := s.insertClient (ClientRec.init clientId info s.tick)
  let s := s.setCompensated clientId ⟨info.reservation, info.weight, info.limit, info.clientType⟩
  if info.clientType ≠ .O then s.addTotalWgtAndUpdateClientRes info.weight else s

/-- The loop of the idle realignment: the least effective proportion tag over the non-idle
clients, starting from the largest double (above every tag the model computes). -/
def lowestPropTag : Dbl :=
  s.clientMap.foldl (fun low c =>
    if !c.idle ∧ c.effectivePropTag < low then c.effectivePropTag else low)
    .maxTag

/-- The idle branch of `do_add_request`: when the least tag is finite (proportion tags are never
`min_tag`), `prop_delta = lowest_prop_tag - time`; the client is no longer idle. -/
def realignIdle (clientId : C) (time : ℚ) : PriorityQueueBase C R :=
  match s.findClient clientId with
  | some client =>
    if client.idle then
      s.modifyClient clientId (fun r =>
        { r with
          propDelta := (match s.lowestPropTag with
            | .fin low => low - time
            | _ => r.propDelta)
          idle := false })
    else s
  | none => s

/-- The deferred tag of `do_add_request`: a request that becomes the head gets a real tag,
computed from the previous tag and copied to it; one queued behind others gets the placeholder
`RequestTag(0, 0, 0, time)`. -/
def newRequestTag (client : ClientRec C R) (reqParams : ReqParams) (time : ℚ) :
    Except String (ClientRec C R × RequestTag) :=
  if client.hasRequest then .ok (client, RequestTag.zero time)
  else (s.clientInfoWrapper client).bind fun info =>
    (RequestTag.make client.prevTag info reqParams.delta reqParams.rho time
      s.anticipationTimeout).map fun tag => (client.updateReqTag tag s.tick, tag)

/-- The first part of `do_add_request`: count the tick, create the client if it is new, and
realign it if it was idle. -/
def admitClient (infoF : C → ClientInfo) (clientId : C) (time : ℚ) : PriorityQueueBase C R :=
  let s := { s with tick := s.tick + 1 }
  let s := if (s.findClient clientId).isSome then s else s.createClient (infoF clientId) clientId
  s.realignIdle clientId time

/-- The last part of `do_add_request`: queue the request with its tag in the client's record,
adjust the client in the heaps of its class when the request is its only one, record `rho` and
`delta`, and adjust it again. -/
def queueRequest (client : ClientRec C R) (tag : RequestTag) (request : R)
    (reqParams : ReqParams) : PriorityQueueBase C R :=
  let c := client.client
  let client := client.addRequest tag c request
  let s := s.modifyClient c (fun _ => client)
  let s := if client.requests.length = 1 then s.adjustClass client.info.clientType c else s
  let s := s.modifyClient c (fun r => { r with curRho := reqParams.rho, curDelta := reqParams.delta })
  s.adjustClass client.info.clientType c

/-- `do_add_request(request, client_id, req_params, time)`; `addl_cost` is not used. -/
def doAddRequest (infoF : C → ClientInfo) (request : R) (clientId : C) (reqParams : ReqParams)
    (time : ℚ) : Except String (PriorityQueueBase C R) :=
  let s := s.admitClient infoF clientId time
  match s.findClient clientId with
  | none => .error "client_map lookup"
  | some client => (s.newRequestTag client reqParams time).map fun (client, tag) =>
    s.queueRequest client tag request reqParams

end PriorityQueueBase

end DmclockServer
