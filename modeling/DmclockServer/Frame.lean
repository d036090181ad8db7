import DmclockServer.Ops

/-!
# Frame lemmas

What the parts of the operations leave alone. The run invariants read a client record only
through its core: the client id, the requests in its queue (without their tags), its info and its
compensation. The heap operations, the weight updates, the promotion walks, the dispatch ladder and
the tag bookkeeping keep the core of every record, the compensated infos and the order of the
client map.
-/

namespace DmclockServer

theorem except_map_eq_ok {ε α β : Type} {x : Except ε α} {f : α → β} {b : β} :
    x.map f = .ok b ↔ ∃ a, x = .ok a ∧ f a = b := by
  cases x <;> simp [Except.map]

theorem except_bind_eq_ok {ε α β : Type} {x : Except ε α} {f : α → Except ε β} {b : β} :
    x >>= f = .ok b ↔ ∃ a, x = .ok a ∧ f a = .ok b := by
  cases x <;> simp [bind, Except.bind]

namespace ClientRec

variable {C R : Type}

/-- The part of a record that the run invariants read. -/
def core (r : ClientRec C R) : C × List R × ClientInfo × ℕ :=
  (r.client, r.requests.map (·.request), r.info, r.rCompensation)

@[simp] theorem core_setHeadTag (r : ClientRec C R) (t : RequestTag) :
    (r.setHeadTag t).core = r.core := by
  unfold core; rw [requests_setHeadTag]; rfl

@[simp] theorem core_updateReqTag (r : ClientRec C R) (t : RequestTag) (k : ℕ) :
    (r.updateReqTag t k).core = r.core := rfl

@[simp] theorem core_resetCounters (r : ClientRec C R) : r.resetCounters.core = r.core := rfl

@[simp] theorem core_reduceReservation (r : ClientRec C R) (d : ℚ) :
    (r.reduceReservation d).core = r.core := by
  unfold reduceReservation; split
  · exact core_setHeadTag r _
  · rfl

end ClientRec

namespace PriorityQueueBase

variable {C R : Type} (s : PriorityQueueBase C R)

/-- The cores of the client map, in its order. -/
def cores : List (C × List R × ClientInfo × ℕ) := s.clientMap.map ClientRec.core

/-! ## The building blocks -/

section Blocks

variable {h : HeapSel} {c : C}

@[simp] theorem clientMap_setHeap (l : List C) : (s.setHeap h l).clientMap = s.clientMap := rfl
@[simp] theorem compensatedClientMap_setHeap (l : List C) :
    (s.setHeap h l).compensatedClientMap = s.compensatedClientMap := rfl

/-- A fold of operations over a list (of heaps, of clients) keeps whatever each operation keeps. -/
theorem foldl_keeps {α β : Type} (f : PriorityQueueBase C R → α) (l : List β)
    {op : PriorityQueueBase C R → β → PriorityQueueBase C R}
    (hop : ∀ s b, f (op s b) = f s) : f (l.foldl op s) = f s := by
  induction l generalizing s with
  | nil => rfl
  | cons b l ih => exact (ih (op s b)).trans (hop s b)

@[simp] theorem compensatedClientMap_addTotalWgtAndUpdateClientRes (w : ℚ) :
    (s.addTotalWgtAndUpdateClientRes w).compensatedClientMap = s.compensatedClientMap := rfl

@[simp] theorem cores_addTotalWgtAndUpdateClientRes (w : ℚ) :
    (s.addTotalWgtAndUpdateClientRes w).cores = s.cores := by
  simp [cores, addTotalWgtAndUpdateClientRes, ClientRec.core]

theorem cores_eq_of_clientMap {s' : PriorityQueueBase C R} (h : s'.clientMap = s.clientMap) :
    s'.cores = s.cores := by
  simp [cores, h]

variable [DecidableEq C]

@[simp] theorem clientMap_heapPush : (s.heapPush h c).clientMap = s.clientMap := rfl
@[simp] theorem clientMap_heapAdjust : (s.heapAdjust h c).clientMap = s.clientMap := rfl
@[simp] theorem clientMap_heapPromote : (s.heapPromote h c).clientMap = s.clientMap := rfl
@[simp] theorem clientMap_heapDemote : (s.heapDemote h c).clientMap = s.clientMap := rfl
@[simp] theorem clientMap_heapDelete : (s.heapDelete h c).clientMap = s.clientMap := rfl
@[simp] theorem compensatedClientMap_heapPush :
    (s.heapPush h c).compensatedClientMap = s.compensatedClientMap := rfl
@[simp] theorem compensatedClientMap_heapAdjust :
    (s.heapAdjust h c).compensatedClientMap = s.compensatedClientMap := rfl
@[simp] theorem compensatedClientMap_heapPromote :
    (s.heapPromote h c).compensatedClientMap = s.compensatedClientMap := rfl
@[simp] theorem compensatedClientMap_heapDemote :
    (s.heapDemote h c).compensatedClientMap = s.compensatedClientMap := rfl
@[simp] theorem compensatedClientMap_heapDelete :
    (s.heapDelete h c).compensatedClientMap = s.compensatedClientMap := rfl

@[simp] theorem clientMap_adjustClass (cls : ClientType) :
    (s.adjustClass cls c).clientMap = s.clientMap :=
  foldl_keeps s (·.clientMap) _ (fun _ _ => rfl)

@[simp] theorem compensatedClientMap_adjustClass (cls : ClientType) :
    (s.adjustClass cls c).compensatedClientMap = s.compensatedClientMap :=
  foldl_keeps s (·.compensatedClientMap) _ (fun _ _ => rfl)

@[simp] theorem clientMap_deleteFromHeaps (r : ClientRec C R) :
    (s.deleteFromHeaps r).clientMap = s.clientMap :=
  foldl_keeps s (·.clientMap) _ (fun _ _ => rfl)

@[simp] theorem compensatedClientMap_deleteFromHeaps (r : ClientRec C R) :
    (s.deleteFromHeaps r).compensatedClientMap = s.compensatedClientMap :=
  foldl_keeps s (·.compensatedClientMap) _ (fun _ _ => rfl)

@[simp] theorem compensatedClientMap_modifyClient (f : ClientRec C R → ClientRec C R) :
    (s.modifyClient c f).compensatedClientMap = s.compensatedClientMap := rfl

theorem findClient_modifyClient {c c' : C} {f : ClientRec C R → ClientRec C R}
    (hf : ∀ r, r.client = c → (f r).client = c) :
    (s.modifyClient c f).findClient c' =
      if c' = c then (s.findClient c).map f else s.findClient c' := by
  unfold findClient modifyClient
  have hp : ((fun r : ClientRec C R => decide (r.client = c')) ∘
      fun r => if r.client = c then f r else r) = fun r => decide (r.client = c') := by
    funext r; by_cases h : r.client = c <;> simp [h, hf r]
  simp only [List.find?_map, hp]
  split
  · subst c'
    cases h : s.clientMap.find? (·.client = c) with
    | none => rfl
    | some r =>
      have hr : r.client = c := by simpa using List.find?_some h
      simp [hr]
  · cases h : s.clientMap.find? (·.client = c') with
    | none => rfl
    | some r =>
      have hr : r.client = c' := by simpa using List.find?_some h
      simp [hr, ‹¬c' = c›]

theorem findClient_client {c : C} {r : ClientRec C R} (h : s.findClient c = some r) :
    r.client = c := by
  simpa using List.find?_some h

theorem findClient_mem {c : C} {r : ClientRec C R} (h : s.findClient c = some r) :
    r ∈ s.clientMap :=
  List.mem_of_find?_eq_some h

theorem topRec_findClient {h : HeapSel} {r : ClientRec C R} (ht : s.topRec h = some r) :
    s.findClient r.client = some r := by
  obtain ⟨c, -, hc⟩ := Option.bind_eq_some.mp ht
  rwa [findClient_client s hc]

theorem cores_modifyClient {f : ClientRec C R → ClientRec C R} (hf : ∀ r, (f r).core = r.core) :
    (s.modifyClient c f).cores = s.cores := by
  simp only [cores, modifyClient, List.map_map]
  exact List.map_congr_left fun r _ => by by_cases h : r.client = c <;> simp [h, hf]

end Blocks

/-! ## Operations that keep the cores -/

section Keep

/-- `s'` has the cores and the compensated infos of `s`. -/
def SameCores (s s' : PriorityQueueBase C R) : Prop :=
  s'.cores = s.cores ∧ s'.compensatedClientMap = s.compensatedClientMap

variable {s} {s' s'' : PriorityQueueBase C R}

theorem SameCores.rfl : SameCores s s := ⟨Eq.refl _, Eq.refl _⟩

theorem SameCores.trans (h₁ : SameCores s s') (h₂ : SameCores s' s'') : SameCores s s'' :=
  ⟨h₂.1.trans h₁.1, h₂.2.trans h₁.2⟩

theorem sameCores_of_clientMap (h₁ : s'.clientMap = s.clientMap)
    (h₂ : s'.compensatedClientMap = s.compensatedClientMap) : SameCores s s' :=
  ⟨cores_eq_of_clientMap s h₁, h₂⟩

theorem sameCores_forHeaps (hs : List HeapSel)
    {op : PriorityQueueBase C R → HeapSel → PriorityQueueBase C R}
    (hop : ∀ t h, (op t h).clientMap = t.clientMap ∧
      (op t h).compensatedClientMap = t.compensatedClientMap) :
    SameCores s (s.forHeaps hs op) := by
  have : ((hs.foldl op s).clientMap, (hs.foldl op s).compensatedClientMap) =
      (s.clientMap, s.compensatedClientMap) :=
    foldl_keeps s (fun t => (t.clientMap, t.compensatedClientMap)) hs fun t h => by simp [hop t h]
  simp only [Prod.mk.injEq] at this
  exact sameCores_of_clientMap this.1 this.2

variable [LinearOrder C]

theorem sameCores_modifyClient {c : C} {f : ClientRec C R → ClientRec C R}
    (hf : ∀ r, (f r).core = r.core) : SameCores s (s.modifyClient c f) :=
  ⟨cores_modifyClient s hf, rfl⟩

theorem promoteWalkLoop_sameCores (lh ph : HeapSel) (now : ℚ) (fuel : ℕ) (s : PriorityQueueBase C R) :
    SameCores s (promoteWalkLoop lh ph now fuel s) := by
  induction fuel generalizing s with
  | zero => exact .rfl
  | succ n ih =>
    unfold promoteWalkLoop
    split
    · exact .rfl
    · split
      · exact .rfl
      · split
        · exact (sameCores_modifyClient (fun r => ClientRec.core_setHeadTag r _)).trans
            ((sameCores_of_clientMap rfl rfl).trans (ih _))
        · exact .rfl

theorem promoteWalk_sameCores (lh ph : HeapSel) (now : ℚ) :
    SameCores s (s.promoteWalk lh ph now) :=
  promoteWalkLoop_sameCores lh ph now _ s

theorem limitBreak_sameCores {n : NextReq} (h : s.limitBreak = some (n, s')) :
    SameCores s s' := by
  unfold limitBreak at h
  repeat' split at h
  all_goals cases h; try exact sameCores_modifyClient fun _ => rfl

/-- The ladder only walks the limit heaps and bumps a counter. -/
theorem dispatchLadder_sameCores {now : ℚ} {n : NextReq}
    (h : s.dispatchLadder now = .ok (n, s')) : SameCores s s' := by
  have bump := fun {t : PriorityQueueBase C R} (ht : SameCores s t) (c : C)
    (f : ClientRec C R → ClientRec C R) (hf : ∀ r, (f r).core = r.core) =>
    ht.trans (sameCores_modifyClient (c := c) hf)
  have w1 := promoteWalk_sameCores (s := s) .limit .burst now
  have w2 := w1.trans (promoteWalk_sameCores .rLimit .deltar now)
  have w3 := w2.trans (promoteWalk_sameCores .bestLimit .best now)
  unfold dispatchLadder at h
  split at h
  · cases h; exact bump .rfl _ _ fun _ => rfl
  dsimp only at h
  split at h
  · cases h; exact bump w1 _ _ fun _ => rfl
  split at h
  · cases h; exact bump w2 _ _ fun _ => rfl
  split at h
  · cases h; exact bump w3 _ _ fun _ => rfl
  split at h
  · rename_i hb; cases h; exact w3.trans (limitBreak_sameCores hb)
  · obtain ⟨_, -, h⟩ := except_map_eq_ok.mp h
    cases h; exact w3

theorem reduceReservationTags_sameCores {r : ClientRec C R}
    (h : s.reduceReservationTags r = .ok s') : SameCores s s' := by
  have key : ∀ d, SameCores s ((s.modifyClient r.client (·.reduceReservation d)).heapPromote
      .resv r.client) := fun d =>
    (sameCores_modifyClient fun r => ClientRec.core_reduceReservation r d).trans
      (sameCores_of_clientMap rfl rfl)
  unfold reduceReservationTags at h
  generalize (if r.info.clientType = .R then s.compensated r.client else some r.info) = i at h
  cases i with
  | none => cases h
  | some info => cases h; exact key _

theorem moveToAnotherHeap_sameCores (c : C) (info : ClientInfo) :
    SameCores s (s.moveToAnotherHeap c info) := by
  unfold moveToAnotherHeap
  split
  · exact .rfl
  · rename_i client _
    dsimp only
    refine SameCores.trans ?_ (sameCores_forHeaps _ fun _ _ => ⟨rfl, rfl⟩)
    refine SameCores.trans ?_ (sameCores_forHeaps _ fun _ _ => ⟨rfl, rfl⟩)
    refine (show SameCores s (s.deleteFromHeaps client) from
      sameCores_of_clientMap (by simp) (by simp)).trans ?_
    split
    · refine sameCores_modifyClient fun r => ?_
      split
      · exact ClientRec.core_setHeadTag r _
      · rfl
    · exact .rfl

theorem realignIdle_sameCores (c : C) (time : ℚ) : SameCores s (s.realignIdle c time) := by
  unfold realignIdle
  split
  · split
    · exact sameCores_modifyClient fun _ => rfl
    · exact .rfl
  · exact .rfl

end Keep

/-! ## Queues -/

section Queues

/-- Every client id with its queue, in the order of the map. -/
def queueView : List (C × List R) := s.cores.map fun x => (x.1, x.2.1)

theorem SameCores.queueView_eq {s s' : PriorityQueueBase C R} (h : SameCores s s') :
    s'.queueView = s.queueView := by
  simp only [queueView, h.1]

@[simp] theorem queueView_addTotalWgtAndUpdateClientRes (w : ℚ) :
    (s.addTotalWgtAndUpdateClientRes w).queueView = s.queueView := by
  simp [queueView]

variable [DecidableEq C]

/-- The requests queued for client `c`, without their tags. -/
def queueOf (c : C) : List R :=
  ((s.clientMap.find? (·.client = c)).map fun r => r.requests.map (·.request)).getD []

theorem queueOf_eq_queueView (c : C) :
    s.queueOf c = ((s.queueView.find? (·.1 = c)).map (·.2)).getD [] := by
  simp only [queueOf, queueView, cores, List.map_map, List.find?_map, Option.map_map]
  rfl

variable {s} {s' : PriorityQueueBase C R}

theorem queueOf_eq_of_queueView (h : s'.queueView = s.queueView) (c : C) :
    s'.queueOf c = s.queueOf c := by
  rw [queueOf_eq_queueView, queueOf_eq_queueView, h]

theorem queueView_modifyClient {c : C} {f : ClientRec C R → ClientRec C R}
    (hf : ∀ r, (f r).client = r.client ∧ (f r).requests.map (·.request) = r.requests.map (·.request)) :
    (s.modifyClient c f).queueView = s.queueView := by
  simp only [queueView, cores, modifyClient, List.map_map]
  exact List.map_congr_left fun r _ => by
    by_cases h : r.client = c <;> simp [h, hf, ClientRec.core]

end Queues

section Rollover

variable [LinearOrder C] {s s' : PriorityQueueBase C R}

theorem compensate_queueView (c : C) : (s.compensate c).queueView = s.queueView := by
  unfold compensate
  split
  · rfl
  · exact queueView_modifyClient fun _ => ⟨rfl, rfl⟩

theorem installInfo_queueView (c : C) (old temp : ClientInfo) :
    (s.installInfo c old temp).queueView = s.queueView := by
  unfold installInfo
  split
  · have hmove : (if temp.clientType ≠ old.clientType then s.moveToAnotherHeap c temp
        else s).queueView = s.queueView := by
      split
      · exact (moveToAnotherHeap_sameCores c temp).queueView_eq
      · rfl
    have hinfo := (queueView_modifyClient (c := c) (f := fun r => { r with info := temp })
      fun _ => ⟨rfl, rfl⟩).trans hmove
    dsimp only
    split
    · rw [queueView_addTotalWgtAndUpdateClientRes]; exact hinfo
    · exact hinfo
  · rfl

theorem checkCompensation_queueView (c : C) :
    (s.checkCompensation c).queueView = s.queueView := by
  unfold checkCompensation
  split
  · split
    · exact compensate_queueView c
    · rfl
  · rfl

theorem rollClient_queueView (infoF : C → ClientInfo) (c : C) :
    (s.rollClient infoF c).queueView = s.queueView := by
  unfold rollClient
  split
  · rfl
  · rw [queueView_modifyClient (f := ClientRec.resetCounters) fun _ => ⟨rfl, rfl⟩,
      checkCompensation_queueView, installInfo_queueView]

/-- The roll-over leaves every queue alone. -/
theorem windowRollover_queueView (infoF : C → ClientInfo) (now : ℚ) :
    (s.windowRollover infoF now).queueView = s.queueView :=
  foldl_keeps _ queueView _ fun t c => rollClient_queueView (s := t) infoF c

theorem doNextRequest_queueView {infoF : C → ClientInfo} {now : ℚ} {n : NextReq}
    (h : s.doNextRequest infoF now = .ok (n, s')) : s'.queueView = s.queueView := by
  unfold doNextRequest at h
  split at h
  · cases h; rfl
  · split at h
    · exact (dispatchLadder_sameCores h).queueView_eq.trans (windowRollover_queueView infoF now)
    · exact (dispatchLadder_sameCores h).queueView_eq

end Rollover

/-! ## What a step did -/

variable [LinearOrder C] {out : Out C R} {t : PriorityQueueBase C R}

/-- A step that does not fail is its operation's function, with the operation's output. -/
theorem step_eq_ok {op : Op C R} (h : s.step op = .ok (out, t)) :
    match op with
    | .addRequest infoF r c p time => out = .unit ∧ s.doAddRequest infoF r c p time = .ok t
    | .pullRequest infoF now => ∃ p, out = .pulled p ∧ s.pullRequest infoF now = .ok (p, t)
    | .scheduleRequest infoF canHandle now =>
      ∃ p, out = .pulled p ∧ s.scheduleRequest infoF canHandle now = .ok (p, t)
    | .removeByClient c rev =>
      out = .dropped (s.removeByClient c rev).2 ∧ t = (s.removeByClient c rev).1
    | .removeByReqFilter f vb =>
      out = .filtered (s.removeByReqFilter f vb).2.1 (s.removeByReqFilter f vb).2.2 ∧
        t = (s.removeByReqFilter f vb).1
    | .updateClientInfo infoF c => out = .unit ∧ t = s.updateClientInfo infoF c
    | .updateClientInfos infoF => out = .unit ∧ t = s.updateClientInfos infoF
    | .doClean now => out = .unit ∧ s.doClean now = .ok t := by
  cases op with
  | addRequest | doClean =>
    obtain ⟨t', h₁, h₂⟩ := except_map_eq_ok.mp h
    cases h₂
    exact ⟨rfl, h₁⟩
  | pullRequest | scheduleRequest =>
    obtain ⟨⟨p, t'⟩, h₁, h₂⟩ := except_map_eq_ok.mp h
    cases h₂
    exact ⟨p, rfl, h₁⟩
  | _ => cases h; exact ⟨rfl, rfl⟩

/-- `schedule_request` does nothing when `can_handle` denies, and polls otherwise. -/
theorem scheduleRequest_eq_ok {infoF : C → ClientInfo} {canHandle : Bool} {now : ℚ}
    {p : PullReq C R} (h : s.scheduleRequest infoF canHandle now = .ok (p, t)) :
    (canHandle = false ∧ p = .none ∧ t = s) ∨
      (canHandle = true ∧ s.pullRequest infoF now = .ok (p, t)) := by
  cases canHandle
  · cases h; exact .inl ⟨rfl, rfl, rfl⟩
  · exact .inr ⟨rfl, h⟩

end PriorityQueueBase

end DmclockServer
