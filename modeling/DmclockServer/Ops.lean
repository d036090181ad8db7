import DmclockServer.Clean

/-!
# The operations and their runs

The remaining public operations of `PriorityQueueBase` (`remove_by_req_filter`,
`remove_by_client`, `update_client_info`, `update_client_infos`), the push facade's
`schedule_request`, and the scheduler as a state machine: `step` applies one operation, every
operation serialised by `data_mtx`, and `Reachable` is the closure of the constructor's states
under `step`.

A filter passed to `remove_by_req_filter` is a `std::function` with state. A deterministic
filter's answer depends only on the requests it was called with before, so it is modelled as a
function of that history and the current request.
-/

namespace DmclockServer

/-- Results of operations compare by value, so that a run can be checked by `decide`. -/
instance instDecidableEqExcept {ε α : Type} [DecidableEq ε] [DecidableEq α] :
    DecidableEq (Except ε α)
  | .error a, .error b => decidable_of_iff (a = b) (by simp)
  | .ok a, .ok b => decidable_of_iff (a = b) (by simp)
  | .error _, .ok _ => isFalse (by simp)
  | .ok _, .error _ => isFalse (by simp)

namespace PriorityQueueBase

variable {C R : Type} [LinearOrder C] (s : PriorityQueueBase C R)

/-- `filter_accum` with its state: the requests it was called with so far, and the requests it
accepted and so took, each with the client whose queue it came from. -/
def accumFilter (f : List R → R → Bool) (c : C) (st : List R × List (C × R)) (r : R) :
    Bool × (List R × List (C × R)) :=
  (f st.1 r, st.1 ++ [r], if f st.1 r then st.2 ++ [(c, r)] else st.2)

/-- The body of `remove_by_req_filter`'s loop for one client: filter its queue and, if anything
was removed, adjust it in the heaps of its class. -/
def filterClient (f : List R → R → Bool) (visitBackwards : Bool)
    (acc : Bool × (List R × List (C × R))) (c : C) :
    PriorityQueueBase C R × Bool × (List R × List (C × R)) :=
  match s.findClient c with
  | none => (s, acc)
  | some client =>
    let (client, modified, st) :=
      client.removeByReqFilter (accumFilter f c) acc.2 visitBackwards
    let s := s.modifyClient c (fun _ => client)
    if modified then (s.adjustClass client.info.clientType c, true, st)
    else (s, acc.1, st)

/-- `remove_by_req_filter(filter_accum, visit_backwards)`: whether any request was removed, and
the requests the filter took. -/
def removeByReqFilter (f : List R → R → Bool) (visitBackwards : Bool) :
    PriorityQueueBase C R × Bool × List (C × R) :=
  let res := (s.clientMap.map (·.client)).foldl
    (fun acc c => acc.1.filterClient f visitBackwards acc.2 c) (s, false, [], [])
  (res.1, res.2.1, res.2.2.2)

/-- `remove_by_client(client, reverse, accum)`: the requests handed to `accum`, in the order
visited; the queue is cleared, the client adjusted in its heaps, and its weight subtracted from
`total_wgt` unless it is of class O. -/
def removeByClient (c : C) (reverse : Bool) : PriorityQueueBase C R × List R :=
  match s.findClient c with
  | none => (s, [])
  | some client =>
    let visited := (if reverse then client.requests.reverse else client.requests).map (·.request)
    let s := (s.modifyClient c (fun r => { r with requests := [] })).adjustClass
      client.info.clientType c
    (if client.info.clientType ≠ .O then s.addTotalWgtAndUpdateClientRes (0 - client.info.weight)
      else s, visited)

/-- `update_client_info(client_id)`: install the callback's info and add the weight difference
unless the new class is O. -/
def updateClientInfo (infoF : C → ClientInfo) (c : C) : PriorityQueueBase C R :=
  match s.findClient c with
  | none => s
  | some client =>
    let s := s.modifyClient c (fun r => { r with info := infoF c })
    if (infoF c).clientType ≠ .O then
      s.addTotalWgtAndUpdateClientRes ((infoF c).weight - client.info.weight)
    else s

/-- `update_client_infos()`: install the callback's info for every client. -/
def updateClientInfos (infoF : C → ClientInfo) : PriorityQueueBase C R :=
  { s with clientMap := s.clientMap.map (fun r => { r with info := infoF r.client }) }

/-- The push facade's `schedule_request` at time `now`: nothing when `can_handle` denies,
otherwise `do_next_request` and, for a dispatch, `submit_request`, which hands the popped request
to `handle_f`. -/
def scheduleRequest (infoF : C → ClientInfo) (canHandle : Bool) (now : ℚ) :
    Except String (PullReq C R × PriorityQueueBase C R) :=
  if !canHandle then .ok (.none, s) else s.pullRequest infoF now

end PriorityQueueBase

/-- An operation on the scheduler, with the inputs the environment supplies: the current
`client_info_f`, the times, and the filters. -/
inductive Op (C R : Type) where
  | addRequest (infoF : C → ClientInfo) (request : R) (clientId : C) (reqParams : ReqParams)
      (time : ℚ)
  | pullRequest (infoF : C → ClientInfo) (now : ℚ)
  | scheduleRequest (infoF : C → ClientInfo) (canHandle : Bool) (now : ℚ)
  | removeByClient (clientId : C) (reverse : Bool)
  | removeByReqFilter (f : List R → R → Bool) (visitBackwards : Bool)
  | updateClientInfo (infoF : C → ClientInfo) (clientId : C)
  | updateClientInfos (infoF : C → ClientInfo)
  | doClean (now : ℚ)

/-- What an operation hands back to the caller. -/
inductive Out (C R : Type) where
  | unit
  | pulled (p : PullReq C R)
  | dropped (requests : List R)
  | filtered (anyRemoved : Bool) (taken : List (C × R))
  deriving DecidableEq, Repr

namespace PriorityQueueBase

variable {C R : Type} [LinearOrder C]

/-- One operation, under `data_mtx`. -/
def step (s : PriorityQueueBase C R) : Op C R → Except String (Out C R × PriorityQueueBase C R)
  | .addRequest infoF request c params time =>
    (s.doAddRequest infoF request c params time).map (fun s => (.unit, s))
  | .pullRequest infoF now => (s.pullRequest infoF now).map (fun (p, s) => (.pulled p, s))
  | .scheduleRequest infoF canHandle now =>
    (s.scheduleRequest infoF canHandle now).map (fun (p, s) => (.pulled p, s))
  | .removeByClient c reverse =>
    let (s, dropped) := s.removeByClient c reverse
    .ok (.dropped dropped, s)
  | .removeByReqFilter f visitBackwards =>
    let (s, anyRemoved, taken) := s.removeByReqFilter f visitBackwards
    .ok (.filtered anyRemoved taken, s)
  | .updateClientInfo infoF c => .ok (.unit, s.updateClientInfo infoF c)
  | .updateClientInfos infoF => .ok (.unit, s.updateClientInfos infoF)
  | .doClean now => (s.doClean now).map (fun s => (.unit, s))

/-- Run a sequence of operations, collecting their outputs and stopping at the first failure. -/
def run (s : PriorityQueueBase C R) :
    List (Op C R) → Except String (List (Out C R) × PriorityQueueBase C R)
  | [] => .ok ([], s)
  | op :: ops => match s.step op with
    | .ok (out, s') => (run s' ops).map (fun (outs, s'') => (out :: outs, s''))
    | .error e => .error e

/-- A run that does not fail is a first step that does not fail, then a run from its state. -/
theorem run_cons_eq_ok {s s' : PriorityQueueBase C R} {op : Op C R} {ops : List (Op C R)}
    {outs : List (Out C R)} (h : s.run (op :: ops) = .ok (outs, s')) :
    ∃ out s₁ outs', s.step op = .ok (out, s₁) ∧ s₁.run ops = .ok (outs', s') ∧
      outs = out :: outs' := by
  simp only [run] at h
  split at h
  · rename_i out s₁ hstep
    cases hr : s₁.run ops with
    | error e => simp [hr, Except.map] at h
    | ok r =>
      obtain ⟨rfl, rfl⟩ : out :: r.1 = outs ∧ r.2 = s' := by simpa [hr, Except.map] using h
      exact ⟨out, s₁, r.1, hstep, hr, rfl⟩
  · cases h

/-- The states reachable from `s₀` by operations that do not fail. -/
inductive Reachable (s₀ : PriorityQueueBase C R) : PriorityQueueBase C R → Prop
  | init : Reachable s₀ s₀
  | step {s s' : PriorityQueueBase C R} {op : Op C R} {out : Out C R} :
      Reachable s₀ s → s.step op = .ok (out, s') → Reachable s₀ s'

/-- A property that every operation of a run keeps holds at the end of the run. -/
theorem run_preserves {P : PriorityQueueBase C R → Prop} {s₀ s : PriorityQueueBase C R}
    {ops : List (Op C R)} {outs : List (Out C R)}
    (hstep : ∀ op ∈ ops, ∀ (t t' : PriorityQueueBase C R) (out : Out C R),
      P t → t.step op = .ok (out, t') → P t')
    (h₀ : P s₀) (h : s₀.run ops = .ok (outs, s)) : P s := by
  induction ops generalizing s₀ outs with
  | nil => cases h; exact h₀
  | cons op ops ih =>
    obtain ⟨out, s₁, outs', hstep₁, hrest, -⟩ := run_cons_eq_ok h
    exact ih (fun o ho => hstep o (.tail _ ho)) (hstep op (.head _) _ _ _ h₀ hstep₁) hrest

/-- A property of a state and of the operations still to run holds at the end of a run, if each
step keeps it as it consumes its operation. -/
theorem run_preserves_rest {P : List (Op C R) → PriorityQueueBase C R → Prop}
    {s₀ s : PriorityQueueBase C R} {ops : List (Op C R)} {outs : List (Out C R)}
    (hstep : ∀ op rest (t t' : PriorityQueueBase C R) (out : Out C R),
      P (op :: rest) t → t.step op = .ok (out, t') → P rest t')
    (h₀ : P ops s₀) (h : s₀.run ops = .ok (outs, s)) : P [] s := by
  induction ops generalizing s₀ outs with
  | nil => cases h; exact h₀
  | cons op ops ih =>
    obtain ⟨out, s₁, outs', hstep₁, hrest, -⟩ := run_cons_eq_ok h
    exact ih (hstep op ops _ _ _ h₀ hstep₁) hrest

/-- A run that does not fail ends in a reachable state. -/
theorem Reachable.run {s₀ s s' : PriorityQueueBase C R} {ops : List (Op C R)}
    {outs : List (Out C R)} (hs : Reachable s₀ s) (h : s.run ops = .ok (outs, s')) :
    Reachable s₀ s' :=
  run_preserves (fun _ _ _ _ _ ht hstep => ht.step hstep) hs h

end PriorityQueueBase

end DmclockServer
