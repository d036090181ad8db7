import DmclockServer.Frame
import DmclockServer.Filter

/-!
# No request is lost or duplicated

The requests of a client are conserved by every run: each request `add_request` accepted for a
client is, at every point, exactly one of handed back by `pull_request` (or to `handle_f` by the
push facade), handed to `remove_by_client`'s `accum`, taken by a filter of
`remove_by_req_filter`, discarded with its client by `do_clean`, or still in the client's queue;
and the requests handed back come in the order they were accepted (`run_accounts`).

`do_clean` erases a client whose `last_tick` is at or before the erase point whether or not its
queue is empty: `doClean_discards_pending` is such a run.

The proof is a step lemma per operation, giving the queue of every client after the operation in
terms of the queue before, and an induction over the run.
-/

namespace DmclockServer

theorem find?_orderedInsert_of_false {α : Type} (rel : α → α → Prop) [DecidableRel rel]
    {p : α → Bool} {x : α} (hx : p x = false) (l : List α) :
    (l.orderedInsert rel x).find? p = l.find? p := by
  induction l with
  | nil => simp [hx]
  | cons b l ih =>
    simp only [List.orderedInsert]
    split <;> simp [List.find?_cons, hx, ih]

theorem find?_orderedInsert_of_none {α : Type} (rel : α → α → Prop) [DecidableRel rel]
    {p : α → Bool} {x : α} (hx : p x = true) {l : List α} (hl : l.find? p = none) :
    (l.orderedInsert rel x).find? p = some x := by
  induction l with
  | nil => simp [hx]
  | cons b l ih =>
    have hb : p b = false := by simpa using List.find?_eq_none.mp hl b (.head _)
    simp only [List.orderedInsert]
    split <;> simp [hx, hb, ih (by simpa [hb] using hl)]

namespace ClientRec

/-! ## Filtering a queue -/

section Filter

variable {C R σ γ : Type} (filter : σ → R → Bool × σ) (tag : R → γ) (g : σ → List γ)
  (hg : ∀ st r, g (filter st r).2 = g st ++ if (filter st r).1 then [tag r] else [])
include hg

theorem filterPass_accounts (st : σ) (l : List (ClientReq C R)) :
    ∃ rem, g (filterPass filter st l).2.2 = g st ++ rem.map tag ∧
      List.Perm ((filterPass filter st l).1.map (·.request) ++ rem) (l.map (·.request)) := by
  induction l generalizing st with
  | nil => exact ⟨[], by simp [filterPass]⟩
  | cons r l ih =>
    obtain ⟨rem, hrem, hp⟩ := ih (filter st r.request).2
    by_cases hf : (filter st r.request).1
    · refine ⟨r.request :: rem, by simp [filterPass, hf, hrem, hg], ?_⟩
      simpa [filterPass, hf] using List.perm_middle.trans (hp.cons _)
    · exact ⟨rem, by simp [filterPass, hf, hrem, hg], by simpa [filterPass, hf] using hp⟩

/-- Filtering a queue conserves its requests: what the filter accepts is what leaves the queue,
and what stays keeps its order. -/
theorem removeByReqFilter_accounts (c : ClientRec C R) (st : σ) (visitBackwards : Bool) :
    ∃ rem, g (c.removeByReqFilter filter st visitBackwards).2.2 = g st ++ rem.map tag ∧
      List.Perm ((c.removeByReqFilter filter st visitBackwards).1.requests.map (·.request) ++ rem)
        (c.requests.map (·.request)) ∧
      (c.removeByReqFilter filter st visitBackwards).1.requests.Sublist c.requests := by
  cases visitBackwards
  · obtain ⟨rem, hrem, hp⟩ := filterPass_accounts filter tag g hg st c.requests
    rw [removeByReqFilter_forward]
    exact ⟨rem, hrem, hp, filterPass_sublist filter st c.requests⟩
  · obtain ⟨rem, hrem, hp⟩ := filterPass_accounts filter tag g hg st c.requests.reverse
    rw [removeByReqFilter_backward]
    refine ⟨rem, hrem, ?_, by simpa using (filterPass_sublist filter st c.requests.reverse).reverse⟩
    rw [List.map_reverse]
    refine ((List.reverse_perm _).append_right rem).trans (hp.trans ?_)
    rw [List.map_reverse]
    exact List.reverse_perm _

end Filter

end ClientRec

/-- The requests of one client that a run accepted, handed back, dropped with `remove_by_client`,
saw taken by a filter, or saw discarded with the client. -/
structure Ledger (R : Type) where
  accepted : List R
  returned : List R
  dropped : List R
  removed : List R
  discarded : List R

namespace Ledger

variable {R : Type}

/-- Nothing happened. -/
def empty : Ledger R := ⟨[], [], [], [], []⟩

/-- Two ledgers, one after the other. -/
def append (a b : Ledger R) : Ledger R :=
  ⟨a.accepted ++ b.accepted, a.returned ++ b.returned, a.dropped ++ b.dropped,
    a.removed ++ b.removed, a.discarded ++ b.discarded⟩

/-- The requests that left: handed back, dropped, taken or discarded. -/
def left (a : Ledger R) : List R := a.returned ++ a.dropped ++ a.removed ++ a.discarded

theorem left_append (a b : Ledger R) : List.Perm (a.left ++ b.left) (a.append b).left := by
  classical
  exact List.perm_iff_count.mpr fun x => by simp only [left, append, List.count_append]; omega

end Ledger

/-- The requests of client `c` among the requests a filter took. -/
def takenBy {C R : Type} [DecidableEq C] (taken : List (C × R)) (c : C) : List R :=
  (taken.filter (·.1 = c)).map (·.2)

/-- The request a `pull_request` answer hands back to client `c`. -/
def PullReq.returnedTo {C R : Type} [DecidableEq C] : PullReq C R → C → List R
  | .returning c₀ r _, c => if c = c₀ then [r] else []
  | _, _ => []

namespace PriorityQueueBase

variable {C R : Type} [LinearOrder C] {s s' : PriorityQueueBase C R}

/-! ## The queues after each operation -/

theorem queueOf_def (c : C) :
    s.queueOf c = ((s.findClient c).map fun r => r.requests.map (·.request)).getD [] := rfl

theorem queueOf_eq_of_clientMap (h : s'.clientMap = s.clientMap) (c : C) :
    s'.queueOf c = s.queueOf c := by
  simp [queueOf, h]

theorem queueOf_modifyClient {a : C} {f : ClientRec C R → ClientRec C R}
    (hf : ∀ r, r.client = a → (f r).client = a) (c : C) :
    (s.modifyClient a f).queueOf c =
      if c = a then ((s.findClient a).map fun r => (f r).requests.map (·.request)).getD []
      else s.queueOf c := by
  rw [queueOf_def, findClient_modifyClient s hf]
  split
  · simp [Option.map_map, Function.comp_def]
  · rfl

@[simp] theorem queueOf_modifyClient_of_requests {c₀ : C} {f : ClientRec C R → ClientRec C R}
    (hc : ∀ r, (f r).client = r.client) (hq : ∀ r, (f r).requests = r.requests) (c : C) :
    (s.modifyClient c₀ f).queueOf c = s.queueOf c :=
  queueOf_eq_of_queueView (queueView_modifyClient fun r => ⟨hc r, by rw [hq r]⟩) c

@[simp] theorem queueOf_adjustClass (cls : ClientType) (c₀ c : C) :
    (s.adjustClass cls c₀).queueOf c = s.queueOf c :=
  queueOf_eq_of_clientMap (clientMap_adjustClass _ _) c

@[simp] theorem queueOf_addTotalWgtAndUpdateClientRes (w : ℚ) (c : C) :
    (s.addTotalWgtAndUpdateClientRes w).queueOf c = s.queueOf c :=
  queueOf_eq_of_queueView (queueView_addTotalWgtAndUpdateClientRes s w) c

@[simp] theorem queueOf_setCompensated (c₀ : C) (info : ClientInfo) (c : C) :
    (s.setCompensated c₀ info).queueOf c = s.queueOf c := rfl

theorem findClient_insertClient_ne (r : ClientRec C R) {c : C} (hc : r.client ≠ c) :
    (s.insertClient r).findClient c = s.findClient c :=
  find?_orderedInsert_of_false _ (by simpa using hc) _

theorem findClient_insertClient_self (r : ClientRec C R) {c : C} (hr : r.client = c)
    (h : s.findClient c = none) : (s.insertClient r).findClient c = some r :=
  find?_orderedInsert_of_none _ (by simpa using hr) h

theorem createClient_queueOf {info : ClientInfo} {c₀ : C} (hc : s.findClient c₀ = none)
    (c : C) : (s.createClient info c₀).queueOf c = s.queueOf c := by
  have hins : ∀ (t : PriorityQueueBase C R) (k : ℕ), t.clientMap = s.clientMap →
      (t.insertClient (ClientRec.init c₀ info k)).queueOf c = s.queueOf c := by
    intro t k ht
    have hc' : t.findClient c₀ = none := by rwa [findClient, ht]
    rw [queueOf_def, queueOf_def]
    by_cases h : c₀ = c
    · subst h
      rw [findClient_insertClient_self (c := c₀) (ClientRec.init c₀ info k) rfl hc', hc]
      rfl
    · rw [findClient_insertClient_ne _ h]
      simp [findClient, ht]
  have h₁ := hins (s.forHeaps (HeapSel.ofClass info.clientType) fun s h => s.heapPush h c₀)
    (s.forHeaps (HeapSel.ofClass info.clientType) fun s h => s.heapPush h c₀).tick
    (foldl_keeps s (·.clientMap) _ fun _ _ => rfl)
  unfold createClient
  dsimp only
  split <;> simpa using h₁

theorem admitClient_queueOf (infoF : C → ClientInfo) (c₀ : C) (time : ℚ) (c : C) :
    (s.admitClient infoF c₀ time).queueOf c = s.queueOf c := by
  unfold admitClient
  dsimp only
  rw [queueOf_eq_of_queueView (realignIdle_sameCores c₀ time).queueView_eq]
  split
  · rfl
  · exact createClient_queueOf (Option.not_isSome_iff_eq_none.mp ‹_›) c

/-- The record `do_add_request` queues the request in: the client's, with the previous tag
updated when the request becomes the head. -/
theorem newRequestTag_fst {client : ClientRec C R} {p : ReqParams} {t : ℚ}
    {res : ClientRec C R × RequestTag} (h : s.newRequestTag client p t = .ok res) :
    res.1 = client ∨ ∃ tag, res.1 = client.updateReqTag tag s.tick := by
  unfold newRequestTag at h
  split at h
  · cases h; exact .inl rfl
  · cases hw : s.clientInfoWrapper client with
    | error e => simp [hw, Except.bind] at h
    | ok info =>
      simp only [hw, Except.bind] at h
      obtain ⟨tag, -, rfl⟩ := except_map_eq_ok.mp h
      exact .inr ⟨tag, rfl⟩

theorem newRequestTag_core {client : ClientRec C R} {p : ReqParams} {t : ℚ}
    {res : ClientRec C R × RequestTag} (h : s.newRequestTag client p t = .ok res) :
    res.1.core = client.core := by
  rcases newRequestTag_fst h with e | ⟨_, e⟩ <;> simp only [e, ClientRec.core_updateReqTag]

theorem queueRequest_queueOf {client : ClientRec C R}
    (hfound : (s.findClient client.client).isSome) (tag : RequestTag) (r : R) (p : ReqParams)
    (c : C) : (s.queueRequest client tag r p).queueOf c =
      if c = client.client then client.requests.map (·.request) ++ [r] else s.queueOf c := by
  have hadd : (s.modifyClient client.client fun _ => client.addRequest tag client.client r).queueOf c
      = if c = client.client then client.requests.map (·.request) ++ [r] else s.queueOf c := by
    rw [queueOf_modifyClient (a := client.client) (f := fun _ => client.addRequest tag client.client r)
      fun _ _ => rfl]
    split
    · obtain ⟨r₀, hr₀⟩ := Option.isSome_iff_exists.mp hfound
      simp [hr₀, ClientRec.addRequest]
    · rfl
  unfold queueRequest
  dsimp only
  simp only [queueOf_adjustClass, queueOf_modifyClient_of_requests (fun _ => rfl) (fun _ => rfl)]
  split <;> simpa using hadd

/-- `add_request` appends the request to its client's queue and touches no other queue. -/
theorem doAddRequest_queueOf {infoF : C → ClientInfo} {r : R} {c₀ : C} {p : ReqParams}
    {time : ℚ} (h : s.doAddRequest infoF r c₀ p time = .ok s') (c : C) :
    s'.queueOf c = s.queueOf c ++ if c = c₀ then [r] else [] := by
  unfold doAddRequest at h
  dsimp only at h
  split at h
  · cases h
  · rename_i client hclient
    obtain ⟨⟨client', tag⟩, htag, rfl⟩ := except_map_eq_ok.mp h
    have hcore := newRequestTag_core htag
    have hcl : client'.client = c₀ :=
      (congrArg Prod.fst hcore).trans (findClient_client _ hclient)
    have hq := admitClient_queueOf (s := s) infoF c₀ time
    rw [queueRequest_queueOf (by rw [hcl, hclient]; rfl) tag r p c, hcl, hq]
    split
    · subst c
      rw [← hq, queueOf_def, hclient]
      simpa using congrArg (·.2.1) hcore
    · simp

theorem tagNewHead_core {top top' : ClientRec C R} {tag : RequestTag}
    (h : s.tagNewHead top tag = .ok top') : top'.core = top.core := by
  unfold tagNewHead at h
  split at h
  · cases h; rfl
  · obtain ⟨info, -, h⟩ := except_bind_eq_ok.mp h
    obtain ⟨t, -, h⟩ := except_bind_eq_ok.mp h
    cases h
    simp

theorem repairHeaps_sameCores {top : ClientRec C R} {cls : ClientType} {isDelta : Bool}
    (h : s.repairHeaps top cls isDelta = .ok s') : SameCores s s' := by
  unfold repairHeaps at h
  split at h
  · obtain ⟨t, ht, rfl⟩ := except_map_eq_ok.mp h
    have hst : SameCores s t := by
      split at ht
      · exact reduceReservationTags_sameCores ht
      · cases ht; exact .rfl
    exact hst.trans (sameCores_of_clientMap rfl rfl)
  all_goals cases h; exact sameCores_of_clientMap rfl rfl

/-- A dispatch pops the head of the dispatched client's queue and touches no other queue. -/
theorem popProcessRequest_queueOf {hs : HeapSel} {isDelta : Bool} {c₀ : C} {r : R}
    (h : s.popProcessRequest hs isDelta = .ok ((c₀, r), s')) (c : C) :
    s.queueOf c = (if c = c₀ then [r] else []) ++ s'.queueOf c := by
  unfold popProcessRequest at h
  split at h
  · cases h
  rename_i top htop
  split at h
  · cases h
  rename_i req hreq
  obtain ⟨top', htag, h⟩ := except_bind_eq_ok.mp h
  obtain ⟨info, -, h⟩ := except_bind_eq_ok.mp h
  obtain ⟨t, hrep, h⟩ := except_bind_eq_ok.mp h
  cases h
  have hcore := tagNewHead_core htag
  have hcl : top'.client = top.client := congrArg Prod.fst hcore
  rw [queueOf_eq_of_queueView (repairHeaps_sameCores hrep).queueView_eq,
    queueOf_modifyClient (a := top.client) (f := fun _ => top') fun _ _ => hcl]
  split
  · subst c
    obtain ⟨rest, hrest⟩ : ∃ rest, top.requests = req :: rest := by
      cases hq : top.requests with
      | nil => simp [ClientRec.nextRequest, hq] at hreq
      | cons a l => simp only [ClientRec.nextRequest, hq, List.head?_cons,
          Option.some.injEq] at hreq; exact ⟨l, by rw [hreq]⟩
    rw [queueOf_def, topRec_findClient s htop]
    simpa [hrest, ClientRec.popRequest, ClientRec.core] using (congrArg (·.2.1) hcore).symm
  · rfl

/-- `pull_request` hands back the head of one client's queue, or nothing, and touches no other
queue. -/
theorem pullRequest_queueOf {infoF : C → ClientInfo} {now : ℚ} {p : PullReq C R}
    (h : s.pullRequest infoF now = .ok (p, s')) (c : C) :
    s.queueOf c = p.returnedTo c ++ s'.queueOf c := by
  unfold pullRequest at h
  obtain ⟨⟨next, s₁⟩, hnext, h⟩ := except_bind_eq_ok.mp h
  rw [← queueOf_eq_of_queueView (doNextRequest_queueView hnext) c]
  dsimp only at h
  split at h
  · cases h; rfl
  · cases h; rfl
  · split at h
    all_goals first
      | cases h
      | obtain ⟨⟨⟨c₀, r⟩, s₂⟩, hpop, h⟩ := except_bind_eq_ok.mp h
        cases h
        exact popProcessRequest_queueOf hpop c

/-- `remove_by_client` empties the client's queue and hands its requests to `accum`. -/
theorem removeByClient_queueOf (c₀ : C) (rev : Bool) (c : C) :
    (s.removeByClient c₀ rev).1.queueOf c = if c = c₀ then [] else s.queueOf c := by
  unfold removeByClient
  split
  · rename_i hnone
    split
    · subst c; simp [queueOf_def, hnone]
    · rfl
  · dsimp only
    have hq : (s.modifyClient c₀ fun r => { r with requests := [] }).queueOf c =
        if c = c₀ then [] else s.queueOf c := by
      rw [queueOf_modifyClient (f := fun r => { r with requests := [] }) (fun _ h => h)]
      split
      · cases s.findClient c₀ <;> rfl
      · rfl
    split <;> simp only [queueOf_addTotalWgtAndUpdateClientRes, queueOf_adjustClass, hq]

theorem removeByClient_dropped (c₀ : C) (rev : Bool) :
    List.Perm (s.removeByClient c₀ rev).2 (s.queueOf c₀) := by
  unfold removeByClient
  split
  · rename_i hnone; simp [queueOf_def, hnone]
  · rename_i client hclient
    simp only [queueOf_def, hclient, Option.map_some', Option.getD_some]
    split
    · exact (List.reverse_perm _).map _
    · rfl

theorem updateClientInfo_queueOf (infoF : C → ClientInfo) (c₀ c : C) :
    (s.updateClientInfo infoF c₀).queueOf c = s.queueOf c := by
  unfold updateClientInfo
  split
  · rfl
  · dsimp only
    split <;> simp

theorem updateClientInfos_queueOf (infoF : C → ClientInfo) (c : C) :
    (s.updateClientInfos infoF).queueOf c = s.queueOf c :=
  queueOf_eq_of_queueView (by simp [queueView, cores, updateClientInfos, ClientRec.core]) c

/-! ## Filtering the queues -/

/-- What a pass of `remove_by_req_filter` may do to the queues: each shrinks to a sublist, and
what leaves it is what the filter took from it. -/
def Filtered (t : PriorityQueueBase C R) (taken : List (C × R)) (t' : PriorityQueueBase C R) :
    Prop :=
  ∀ c, List.Perm (t.queueOf c) (t'.queueOf c ++ takenBy taken c) ∧ (t'.queueOf c).Sublist (t.queueOf c)

theorem Filtered.rfl' : Filtered s [] s := fun c => by simp [takenBy]

theorem Filtered.trans {t t' t'' : PriorityQueueBase C R} {a b : List (C × R)}
    (h₁ : Filtered t a t') (h₂ : Filtered t' b t'') : Filtered t (a ++ b) t'' := fun c => by
  refine ⟨?_, (h₂ c).2.trans (h₁ c).2⟩
  have htb : takenBy (a ++ b) c = takenBy a c ++ takenBy b c := by simp [takenBy]
  rw [htb]
  calc List.Perm (t.queueOf c) (t'.queueOf c ++ takenBy a c) := (h₁ c).1
    List.Perm _ (t''.queueOf c ++ takenBy b c ++ takenBy a c) := (h₂ c).1.append_right _
    List.Perm _ (t''.queueOf c ++ (takenBy a c ++ takenBy b c)) := by
      rw [List.append_assoc]; exact List.perm_append_comm.append_left _

theorem takenBy_map_pair (rem : List R) (c₀ c : C) :
    takenBy (rem.map fun r => (c₀, r)) c = if c = c₀ then rem else [] := by
  unfold takenBy
  split
  · subst c; simp [List.filter_map, Function.comp_def]
  · simp [List.filter_map, Function.comp_def, Ne.symm ‹_›]

/-- One client's pass of `remove_by_req_filter`. -/
theorem filterClient_filtered (f : List R → R → Bool) (vb : Bool)
    (acc : Bool × (List R × List (C × R))) (c₀ : C) :
    ∃ new, (s.filterClient f vb acc c₀).2.2.2 = acc.2.2 ++ new ∧
      Filtered s new (s.filterClient f vb acc c₀).1 := by
  unfold filterClient
  split
  · exact ⟨[], by simp, Filtered.rfl'⟩
  · rename_i client hclient
    obtain ⟨rem, hrem, hperm, hsub⟩ := client.removeByReqFilter_accounts (accumFilter f c₀)
      (fun r => (c₀, r)) (fun st => st.2) (fun st r => by unfold accumFilter; split <;> simp [*])
      acc.2 vb
    have hcl : (client.removeByReqFilter (accumFilter f c₀) acc.2 vb).1.client = c₀ :=
      (findClient_client s hclient :)
    dsimp only
    generalize client.removeByReqFilter (accumFilter f c₀) acc.2 vb = res at hrem hperm hsub hcl ⊢
    have hq : Filtered s (rem.map fun r => (c₀, r)) (s.modifyClient c₀ fun _ => res.1) := by
      intro c
      rw [queueOf_modifyClient (f := fun _ => res.1) (fun _ _ => hcl), takenBy_map_pair]
      split
      · subst c
        simp only [queueOf_def, hclient, Option.map_some', Option.getD_some]
        exact ⟨hperm.symm, hsub.map _⟩
      · simp
    refine ⟨rem.map fun r => (c₀, r), ?_, ?_⟩
    · split <;> exact hrem
    · split
      · exact fun c => by simpa using hq c
      · exact hq

/-- `remove_by_req_filter` shrinks every queue to a sublist, and what leaves a queue is what the
filter took from it. -/
theorem removeByReqFilter_filtered (f : List R → R → Bool) (vb : Bool) :
    Filtered s (s.removeByReqFilter f vb).2.2 (s.removeByReqFilter f vb).1 := by
  unfold removeByReqFilter
  suffices ∀ (ids : List C) (t : PriorityQueueBase C R) (acc : Bool × (List R × List (C × R))),
      Filtered s acc.2.2 t →
      Filtered s (ids.foldl (fun acc c => acc.1.filterClient f vb acc.2 c) (t, acc)).2.2.2
        (ids.foldl (fun acc c => acc.1.filterClient f vb acc.2 c) (t, acc)).1 from
    this _ s _ Filtered.rfl'
  intro ids
  induction ids with
  | nil => exact fun _ _ h => h
  | cons c₀ ids ih =>
    intro t acc h
    obtain ⟨new, hnew, hf⟩ := t.filterClient_filtered f vb acc c₀
    exact ih _ _ (hnew ▸ h.trans hf)

/-! ## The janitor -/

/-- What `do_clean` may do to the client map: erase clients, and keep the queue of every client it
keeps. -/
def Shrinks (t t' : PriorityQueueBase C R) : Prop :=
  ∀ c, (t'.findClient c).isSome → (t.findClient c).isSome ∧ t'.queueOf c = t.queueOf c

theorem Shrinks.rfl' : Shrinks s s := fun _ h => ⟨h, rfl⟩

theorem Shrinks.trans {t t' t'' : PriorityQueueBase C R} (h₁ : Shrinks t t') (h₂ : Shrinks t' t'') :
    Shrinks t t'' := fun c h =>
  ⟨(h₁ c (h₂ c h).1).1, (h₂ c h).2.trans (h₁ c (h₂ c h).1).2⟩

theorem Shrinks.of_queueView {t t' : PriorityQueueBase C R} (hv : t'.queueView = t.queueView)
    (hf : ∀ c, (t'.findClient c).isSome = (t.findClient c).isSome) : Shrinks t t' := fun c h =>
  ⟨hf c ▸ h, queueOf_eq_of_queueView hv c⟩

theorem findClient_eraseClient (c₀ c : C) :
    (s.eraseClient c₀).findClient c = if c = c₀ then none else s.findClient c := by
  unfold eraseClient findClient
  simp only [List.find?_filter]
  split
  · subst c; simp
  · congr 1; funext r; by_cases h : r.client = c <;> simp [h, ‹¬c = c₀›]

theorem isSome_findClient_addTotalWgtAndUpdateClientRes (w : ℚ) (c : C) :
    ((s.addTotalWgtAndUpdateClientRes w).findClient c).isSome = (s.findClient c).isSome := by
  simp [findClient, addTotalWgtAndUpdateClientRes, List.find?_map, Function.comp_def]

theorem cleanClient_shrinks (e i : ℕ) (c₀ : C) : Shrinks s (s.cleanClient e i c₀) := by
  unfold cleanClient
  split
  · exact .rfl'
  · rename_i r hr
    have herase : Shrinks s ((s.deleteFromHeaps r).eraseClient c₀) := fun c h => by
      rw [findClient_eraseClient] at h
      split at h
      · simp at h
      · refine ⟨by simpa [findClient] using h, ?_⟩
        rw [queueOf_def, findClient_eraseClient, if_neg ‹_›]
        exact queueOf_eq_of_clientMap (clientMap_deleteFromHeaps _ _) c
    have hadd : ∀ t : PriorityQueueBase C R, ∀ w, Shrinks t (t.addTotalWgtAndUpdateClientRes w) :=
      fun t w => .of_queueView (queueView_addTotalWgtAndUpdateClientRes t w)
        (isSome_findClient_addTotalWgtAndUpdateClientRes (s := t) w)
    split
    · dsimp only
      split
      · exact herase
      · split
        · exact herase.trans (hadd _ _)
        · exact herase
    · split
      · exact .of_queueView (queueView_modifyClient fun _ => ⟨rfl, rfl⟩) fun c => by
          rw [findClient_modifyClient s (f := fun r => { r with idle := true }) (fun _ h => h)]
          split <;> simp_all
      · exact .rfl'

theorem foldl_cleanClient_shrinks (e i : ℕ) (ids : List C) (t : PriorityQueueBase C R) :
    Shrinks t (ids.foldl (fun s c => s.cleanClient e i c) t) := by
  induction ids generalizing t with
  | nil => exact .rfl'
  | cons c ids ih => exact (cleanClient_shrinks e i c).trans (ih _)

/-- `do_clean` erases clients, pending requests included, and keeps every other queue. -/
theorem doClean_shrinks {now : ℚ} (h : s.doClean now = .ok s') : Shrinks s s' := by
  unfold doClean at h
  obtain ⟨⟨pts, ep⟩, -, h⟩ := except_bind_eq_ok.mp h
  cases h
  split
  · exact foldl_cleanClient_shrinks _ _ _ { s with cleanMarkPoints := pts }
  · exact .rfl'

/-! ## The ledger of a run -/

/-- What one step did to the requests of client `c`. -/
def stepLedger (c : C) (s : PriorityQueueBase C R) (op : Op C R) (out : Out C R)
    (s' : PriorityQueueBase C R) : Ledger R where
  accepted := match op with
    | .addRequest _ r c₀ _ _ => if c = c₀ then [r] else []
    | _ => []
  returned := match out with
    | .pulled p => p.returnedTo c
    | _ => []
  dropped := match op, out with
    | .removeByClient c₀ _, .dropped l => if c = c₀ then l else []
    | _, _ => []
  removed := match out with
    | .filtered _ taken => takenBy taken c
    | _ => []
  discarded := match op with
    | .doClean _ => if (s'.findClient c).isNone then s.queueOf c else []
    | _ => []

/-- What a run did to the requests of client `c`. -/
def runLedger (c : C) (s : PriorityQueueBase C R) : List (Op C R) → Ledger R
  | [] => .empty
  | op :: ops => match s.step op with
    | .ok (out, s') => (stepLedger c s op out s').append (runLedger c s' ops)
    | .error _ => .empty

/-- The step lemma: after one operation, the queue of client `c` and what left it account for the
queue before and what the operation accepted, and what was handed back with what stays keeps the
order of what was queued. -/
theorem step_accounts {op : Op C R} {out : Out C R} (h : s.step op = .ok (out, s')) (c : C) :
    ((stepLedger c s op out s').returned ++ s'.queueOf c).Sublist
        (s.queueOf c ++ (stepLedger c s op out s').accepted) ∧
      List.Perm (s.queueOf c ++ (stepLedger c s op out s').accepted)
        ((stepLedger c s op out s').left ++ s'.queueOf c) := by
  cases op with
  | addRequest infoF r c₀ p t =>
    obtain ⟨rfl, h₁⟩ := step_eq_ok s h
    simp [stepLedger, Ledger.left, doAddRequest_queueOf h₁ c]
  | pullRequest infoF now =>
    obtain ⟨p, rfl, h₁⟩ := step_eq_ok s h
    simp [stepLedger, Ledger.left, pullRequest_queueOf h₁ c]
  | scheduleRequest infoF canHandle now =>
    obtain ⟨p, rfl, h₁⟩ := step_eq_ok s h
    rcases scheduleRequest_eq_ok s h₁ with ⟨-, rfl, rfl⟩ | ⟨-, h₁⟩
    · simp [stepLedger, Ledger.left, PullReq.returnedTo]
    · simp [stepLedger, Ledger.left, pullRequest_queueOf h₁ c]
  | removeByClient c₀ rev =>
    obtain ⟨rfl, rfl⟩ := step_eq_ok s h
    simp only [stepLedger, Ledger.left, removeByClient_queueOf]
    split
    · subst c; simpa using (removeByClient_dropped c₀ rev).symm
    · simp
  | removeByReqFilter f vb =>
    obtain ⟨rfl, rfl⟩ := step_eq_ok s h
    have hf := removeByReqFilter_filtered (s := s) f vb c
    simpa [stepLedger, Ledger.left] using ⟨hf.2, hf.1.trans List.perm_append_comm⟩
  | updateClientInfo infoF c₀ =>
    cases h
    simp [stepLedger, Ledger.left, updateClientInfo_queueOf]
  | updateClientInfos infoF =>
    cases h
    simp [stepLedger, Ledger.left, updateClientInfos_queueOf]
  | doClean now =>
    obtain ⟨rfl, h₁⟩ := step_eq_ok s h
    have hs := doClean_shrinks h₁ c
    simp only [stepLedger, Ledger.left, List.nil_append, List.append_nil]
    cases hc : s'.findClient c with
    | none => simp [queueOf_def, hc]
    | some r => simp [(hs (by simp [hc])).2]

/-- The run lemma: from any state, what a run handed back and what stays of `c`'s queue keep the
order of what was queued and accepted, and what was queued and accepted is what left and what
stays. -/
theorem run_accounts_from {s₀ s : PriorityQueueBase C R} {ops : List (Op C R)}
    {outs : List (Out C R)} (h : s₀.run ops = .ok (outs, s)) (c : C) :
    ((runLedger c s₀ ops).returned ++ s.queueOf c).Sublist
        (s₀.queueOf c ++ (runLedger c s₀ ops).accepted) ∧
      List.Perm (s₀.queueOf c ++ (runLedger c s₀ ops).accepted)
        ((runLedger c s₀ ops).left ++ s.queueOf c) := by
  induction ops generalizing s₀ outs with
  | nil => cases h; simp [runLedger, Ledger.empty, Ledger.left]
  | cons op ops ih =>
    obtain ⟨out, s₁, outs', hstep, hrun, -⟩ := run_cons_eq_ok h
    obtain ⟨hsub₁, hperm₁⟩ := step_accounts hstep c
    obtain ⟨hsub₂, hperm₂⟩ := ih hrun
    simp only [runLedger, hstep]
    generalize stepLedger c s₀ op out s₁ = e at hsub₁ hperm₁
    generalize runLedger c s₁ ops = L at hsub₂ hperm₂
    constructor
    · have h₁ := hsub₂.append_left e.returned
      have h₂ := hsub₁.append_right L.accepted
      simp only [← List.append_assoc] at h₁ h₂
      simpa [Ledger.append] using h₁.trans h₂
    · have h₁ := hperm₁.append_right L.accepted
      have h₂ := hperm₂.append_left e.left
      have h₃ := (Ledger.left_append e L).append_right (s.queueOf c)
      simp only [List.append_assoc] at h₁ h₂ h₃
      simpa [Ledger.append] using h₁.trans (h₂.trans h₃)

/-- **No request is lost or duplicated.** In every run from the constructor's state and for every
client `c`, the requests handed back for `c` followed by those still queued for it are a
subsequence of the requests accepted for it: each is handed back at most once, in the order it
was accepted. The accepted requests are exactly those handed back, handed to
`remove_by_client`'s `accum`, taken by a filter, discarded with the client by `do_clean`, and
those still queued. -/
theorem run_accounts {b : ℕ} {idleAge eraseAge checkTime : ℚ} {alb : Bool} {at' cap win : ℚ}
    {s₀ s : PriorityQueueBase C R} {ops : List (Op C R)} {outs : List (Out C R)}
    (h₀ : init b idleAge eraseAge checkTime alb at' cap win = .ok s₀)
    (h : s₀.run ops = .ok (outs, s)) (c : C) :
    ((runLedger c s₀ ops).returned ++ s.queueOf c).Sublist (runLedger c s₀ ops).accepted ∧
      List.Perm (runLedger c s₀ ops).accepted
        ((runLedger c s₀ ops).returned ++ (runLedger c s₀ ops).dropped ++
          (runLedger c s₀ ops).removed ++ (runLedger c s₀ ops).discarded ++ s.queueOf c) := by
  have hq : s₀.queueOf c = [] := by simp [queueOf_def, findClient, (init_eq_ok h₀).1]
  simpa [hq, Ledger.left] using run_accounts_from h c

section Runs

attribute [local semireducible] Rat.add Rat.mul Rat.inv Rat.sub

theorem run_accounts_two_adds_and_a_pull :
    ∃ (s₀ : PriorityQueueBase ℕ ℕ) (outs : List (Out ℕ ℕ)) (s : PriorityQueueBase ℕ ℕ),
      init 2 600 900 360 false 0 10 1 = .ok s₀ ∧
      s₀.run [.addRequest (fun _ => ⟨0, 1, 0, .B⟩) 100 1 {} 0,
        .addRequest (fun _ => ⟨0, 1, 0, .B⟩) 101 1 {} 0,
        .pullRequest (fun _ => ⟨0, 1, 0, .B⟩) 0] = .ok (outs, s) ∧
      (((runLedger 1 s₀ [.addRequest (fun _ => ⟨0, 1, 0, .B⟩) 100 1 {} 0,
        .addRequest (fun _ => ⟨0, 1, 0, .B⟩) 101 1 {} 0,
        .pullRequest (fun _ => ⟨0, 1, 0, .B⟩) 0]).returned ++ s.queueOf 1).Sublist
        (runLedger 1 s₀ [.addRequest (fun _ => ⟨0, 1, 0, .B⟩) 100 1 {} 0,
          .addRequest (fun _ => ⟨0, 1, 0, .B⟩) 101 1 {} 0,
          .pullRequest (fun _ => ⟨0, 1, 0, .B⟩) 0]).accepted ∧
      List.Perm (runLedger 1 s₀ [.addRequest (fun _ => ⟨0, 1, 0, .B⟩) 100 1 {} 0,
          .addRequest (fun _ => ⟨0, 1, 0, .B⟩) 101 1 {} 0,
          .pullRequest (fun _ => ⟨0, 1, 0, .B⟩) 0]).accepted
        ((runLedger 1 s₀ [.addRequest (fun _ => ⟨0, 1, 0, .B⟩) 100 1 {} 0,
          .addRequest (fun _ => ⟨0, 1, 0, .B⟩) 101 1 {} 0,
          .pullRequest (fun _ => ⟨0, 1, 0, .B⟩) 0]).returned ++ [] ++ [] ++ [] ++ s.queueOf 1)) :=
  ⟨_, _, _, rfl, rfl, @run_accounts ℕ ℕ _ 2 600 900 360 false 0 10 1 _ _ _ _ rfl (by rfl) 1⟩

/-- `do_clean` erases a client whose queue is not empty: request 100, accepted for client 1, is
neither handed back, nor dropped, nor taken by a filter, nor queued any more. -/
theorem doClean_discards_pending :
    ∃ (s₀ : PriorityQueueBase ℕ ℕ) (s : PriorityQueueBase ℕ ℕ),
      init 2 600 900 360 false 0 10 1 = .ok s₀ ∧
      s₀.run [.addRequest (fun _ => ⟨0, 1, 0, .B⟩) 100 1 {} 0, .doClean 0, .doClean 1000] =
        .ok ([.unit, .unit, .unit], s) ∧
      (runLedger 1 s₀ [.addRequest (fun _ => ⟨0, 1, 0, .B⟩) 100 1 {} 0, .doClean 0,
        .doClean 1000]).accepted = [100] ∧
      (runLedger 1 s₀ [.addRequest (fun _ => ⟨0, 1, 0, .B⟩) 100 1 {} 0, .doClean 0,
        .doClean 1000]).returned = [] ∧
      (runLedger 1 s₀ [.addRequest (fun _ => ⟨0, 1, 0, .B⟩) 100 1 {} 0, .doClean 0,
        .doClean 1000]).dropped = [] ∧
      (runLedger 1 s₀ [.addRequest (fun _ => ⟨0, 1, 0, .B⟩) 100 1 {} 0, .doClean 0,
        .doClean 1000]).removed = [] ∧
      s.queueOf 1 = [] :=
  ⟨_, _, rfl, rfl, by decide, by decide, by decide, by decide, by decide⟩

end Runs

end PriorityQueueBase

end DmclockServer
