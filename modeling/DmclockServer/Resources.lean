import DmclockServer.Order

/-!
# The resources over runs with one callback

Rules 3 and 5 of the ladder read a client's budget off its `resource`, which
`add_total_wgt_and_update_client_res` sets for every client to
`system_capacity * weight * win_size / total_wgt` after adding a weight difference to
`total_wgt`. `update_client_infos` installs a new weight without that recomputation
(`updateClientInfos_breaks_resourcesCurrent`). With one callback `info`, every run keeps
`ResourcesCurrent`: each client not of class O has the resource the recomputation gives it from
its weight and the current `total_wgt`.

* `KeepsLedger s t`: `t` has the `total_wgt`, capacity and window of `s`, and each record of `t`
  has the info and resource of a record of `s`. The walks, the ladder, the pop, the roll-over under
  the records' own callback, the request filter, the queueing of a request and the erase of
  `do_clean` are such moves;
* the recomputation makes the invariant hold whatever came before
  (`resourcesCurrent_addTotalWgtAndUpdateClientRes`); the creation of a client, `remove_by_client`,
  `update_client_info` (with any callback) and `do_clean` end with a recomputation or change no
  resource that the invariant reads;
* `run_resourcesCurrent`: every run from the constructor's state.

The code keeps `total_wgt` by `+=` and `-=` on doubles, so it need not stay the sum of the
weights; the invariant compares each resource with the formula the code evaluates on the current
`total_wgt`, and does not depend on that sum.
-/

namespace DmclockServer

namespace ClientRec

variable {C R : Type}

/-- What `ResourcesCurrent` reads of a record: its info and resource. -/
def ledger (r : ClientRec C R) : ClientInfo × Option Dbl := (r.info, r.resource)

theorem ledger_reduceReservation (r : ClientRec C R) (d : ℚ) :
    (r.reduceReservation d).ledger = r.ledger := by
  unfold reduceReservation
  split <;> rfl

end ClientRec

namespace PriorityQueueBase

variable {C R : Type} {s t u : PriorityQueueBase C R}

/-- What the recomputation reads of a state besides the records: `total_wgt`, the capacity and the
window. -/
def totals (s : PriorityQueueBase C R) : ℚ × ℚ × ℚ := (s.totalWgt, s.systemCapacity, s.winSize)

/-- `t` has the totals of `s`, and each record of `t` has the info and resource of a record of
`s`. -/
def KeepsLedger (s t : PriorityQueueBase C R) : Prop :=
  t.totals = s.totals ∧ ∀ r' ∈ t.clientMap, ∃ r ∈ s.clientMap, r'.ledger = r.ledger

theorem KeepsLedger.rfl : KeepsLedger s s := ⟨Eq.refl _, fun r h => ⟨r, h, Eq.refl _⟩⟩

theorem KeepsLedger.trans (h₁ : KeepsLedger s t) (h₂ : KeepsLedger t u) : KeepsLedger s u := by
  refine ⟨h₂.1.trans h₁.1, fun r'' h => ?_⟩
  obtain ⟨r', hr', e'⟩ := h₂.2 r'' h
  obtain ⟨r, hr, e⟩ := h₁.2 r' hr'
  exact ⟨r, hr, e'.trans e⟩

/-- The invariant reads the ledgers and the totals only. -/
theorem ResourcesCurrent.keeps (hs : s.ResourcesCurrent) (h : KeepsLedger s t) :
    t.ResourcesCurrent := by
  intro r' hr' hO
  obtain ⟨hv, hl⟩ := h
  obtain ⟨r, hr, e⟩ := hl r' hr'
  simp only [ClientRec.ledger, Prod.mk.injEq] at e
  simp only [totals, Prod.mk.injEq] at hv
  obtain ⟨ht, hc, hw⟩ := hv
  rw [e.1, e.2, ht, hc, hw]
  exact hs r hr (e.1 ▸ hO)

theorem keepsLedger_of_map {g : ClientRec C R → ClientRec C R}
    (hg : ∀ r ∈ s.clientMap, ∃ r₀ ∈ s.clientMap, (g r).ledger = r₀.ledger)
    (hm : t.clientMap = s.clientMap.map g) (hv : t.totals = s.totals) : KeepsLedger s t := by
  refine ⟨hv, fun r' h => ?_⟩
  rw [hm, List.mem_map] at h
  obtain ⟨r, hr, rfl⟩ := h
  exact hg r hr

theorem keepsLedger_of_clientMap (hm : t.clientMap = s.clientMap) (hv : t.totals = s.totals) :
    KeepsLedger s t :=
  keepsLedger_of_map (g := id) (fun r hr => ⟨r, hr, Eq.refl _⟩) (by simp [hm]) hv

/-! ## Moves that keep the ledgers -/

section Moves

theorem keepsLedger_forHeaps (hs : List HeapSel)
    {op : PriorityQueueBase C R → HeapSel → PriorityQueueBase C R}
    (hm : ∀ u h, (op u h).clientMap = u.clientMap) (hv : ∀ u h, (op u h).totals = u.totals) :
    KeepsLedger s (s.forHeaps hs op) :=
  keepsLedger_of_clientMap (foldl_keeps s (·.clientMap) hs hm) (foldl_keeps s totals hs hv)

variable [LinearOrder C]

theorem keepsLedger_eraseClient (c : C) : KeepsLedger s (s.eraseClient c) :=
  ⟨Eq.refl _, fun r h => ⟨r, (List.mem_filter.mp h).1, Eq.refl _⟩⟩

theorem keepsLedger_modifyClient {x : C} {f : ClientRec C R → ClientRec C R}
    (hf : ∀ r ∈ s.clientMap, r.client = x → ∃ r₀ ∈ s.clientMap, (f r).ledger = r₀.ledger) :
    KeepsLedger s (s.modifyClient x f) :=
  keepsLedger_of_map (g := fun r => if r.client = x then f r else r)
    (fun r hr => by dsimp only; split; exacts [hf r hr ‹_›, ⟨r, hr, Eq.refl _⟩]) rfl rfl

theorem keepsLedger_adjustClass (cls : ClientType) (c : C) : KeepsLedger s (s.adjustClass cls c) :=
  keepsLedger_forHeaps _ (fun _ _ => rfl) fun _ _ => rfl

theorem keepsLedger_promoteWalk (lh ph : HeapSel) (now : ℚ) :
    KeepsLedger s (s.promoteWalk lh ph now) :=
  promoteWalkLoop_induction (P := KeepsLedger s)
    (fun t top q _ _ _ _ ht => ht.trans (keepsLedger_modifyClient (s := t) (x := top.client)
      (f := (·.setHeadTag { q.tag with ready := true })) fun r hr _ => ⟨r, hr, Eq.refl _⟩)) _ s
    .rfl

theorem keepsLedger_limitBreak {n : NextReq} (h : s.limitBreak = some (n, t)) :
    KeepsLedger s t := by
  unfold limitBreak at h
  repeat' split at h
  all_goals cases h
  all_goals exact keepsLedger_modifyClient fun r hr _ => ⟨r, hr, Eq.refl _⟩

/-- The ladder only walks the limit heaps and bumps a counter. -/
theorem keepsLedger_dispatchLadder {now : ℚ} {n : NextReq}
    (h : s.dispatchLadder now = .ok (n, t)) : KeepsLedger s t := by
  have bump {u : PriorityQueueBase C R} (hu : KeepsLedger s u) (x : C)
      (f : ClientRec C R → ClientRec C R) (hf : ∀ r, (f r).ledger = r.ledger) :
      KeepsLedger s (u.modifyClient x f) :=
    hu.trans (keepsLedger_modifyClient fun r hr _ => ⟨r, hr, hf r⟩)
  have w₁ := keepsLedger_promoteWalk (s := s) .limit .burst now
  have w₂ := w₁.trans (keepsLedger_promoteWalk .rLimit .deltar now)
  have w₃ := w₂.trans (keepsLedger_promoteWalk .bestLimit .best now)
  unfold dispatchLadder at h
  split at h
  · cases h; exact bump .rfl _ _ fun _ => rfl
  dsimp only at h
  split at h
  · cases h; exact bump w₁ _ _ fun _ => rfl
  split at h
  · cases h; exact bump w₂ _ _ fun _ => rfl
  split at h
  · cases h; exact bump w₃ _ _ fun _ => rfl
  split at h
  · rename_i hb; cases h; exact w₃.trans (keepsLedger_limitBreak hb)
  · obtain ⟨_, -, h⟩ := except_map_eq_ok.mp h
    cases h; exact w₃

/-- The compensated map is not part of a ledger. -/
theorem KeepsLedger.setCompensated (h : KeepsLedger s t) (c : C) (i : ClientInfo) :
    KeepsLedger s (t.setCompensated c i) := h

theorem keepsLedger_compensate (c : C) : KeepsLedger s (s.compensate c) := by
  unfold compensate
  split
  · exact .rfl
  · refine KeepsLedger.setCompensated ?_ _ _
    exact keepsLedger_modifyClient fun r hr _ => ⟨r, hr, Eq.refl _⟩

variable {info : C → ClientInfo}

/-- At a roll-over under the records' own callback no info changes, and the compensation update
and the counter reset touch no ledger. -/
theorem InfoFaithful.keepsLedger_rollClient (hi : InfoFaithful info s) (c : C) :
    KeepsLedger s (s.rollClient info c) := by
  unfold PriorityQueueBase.rollClient
  split
  · exact .rfl
  · rename_i client hclient
    rw [installInfo, if_neg (by rw [hi.info_of_findClient hclient]; exact not_not.mpr rfl)]
    refine .trans ?_ (keepsLedger_modifyClient fun r hr _ => ⟨r, hr, Eq.refl _⟩)
    unfold checkCompensation
    split
    · split
      · exact keepsLedger_compensate c
      · exact .rfl
    · exact .rfl

theorem InfoFaithful.keepsLedger_windowRollover (hi : InfoFaithful info s) (now : ℚ) :
    KeepsLedger s (s.windowRollover info now) := by
  unfold PriorityQueueBase.windowRollover
  dsimp only
  exact (List.foldlRecOn (motive := fun u => InfoFaithful info u ∧ KeepsLedger s u) _ _
    (b := { s with winStart := max (s.winStart + s.winSize) now })
    ⟨hi.keeps (keepsInfo_of_clientMap rfl rfl), keepsLedger_of_clientMap rfl rfl⟩
    fun u hu c _ => ⟨infoFaithful_keptWith.under.rollClient hu.1 c,
      hu.2.trans (hu.1.keepsLedger_rollClient c)⟩).2

theorem InfoFaithful.keepsLedger_doNextRequest (hi : InfoFaithful info s) {now : ℚ}
    {n : NextReq} (h : s.doNextRequest info now = .ok (n, t)) : KeepsLedger s t := by
  unfold PriorityQueueBase.doNextRequest at h
  split at h
  · cases h; exact .rfl
  · refine .trans ?_ (keepsLedger_dispatchLadder h)
    split
    · exact hi.keepsLedger_windowRollover now
    · exact .rfl

theorem ledger_tagNewHead {top top' : ClientRec C R} {tag : RequestTag}
    (h : s.tagNewHead top tag = .ok top') : top'.ledger = top.ledger := by
  unfold tagNewHead at h
  split at h
  · cases h; rfl
  · obtain ⟨info, -, h⟩ := except_bind_eq_ok.mp h
    obtain ⟨t, -, h⟩ := except_bind_eq_ok.mp h
    cases h; rfl

theorem keepsLedger_repairHeaps {top : ClientRec C R} {cls : ClientType} {isDelta : Bool}
    (h : s.repairHeaps top cls isDelta = .ok t) : KeepsLedger s t := by
  unfold repairHeaps at h
  split at h
  · obtain ⟨t', ht, rfl⟩ := except_map_eq_ok.mp h
    refine .trans ?_ (keepsLedger_of_clientMap rfl rfl)
    split at ht
    · unfold reduceReservationTags at ht
      generalize (if top.info.clientType = .R then s.compensated top.client else some top.info) = i
        at ht
      cases i with
      | none => cases ht
      | some info =>
        cases ht
        have h₁ : KeepsLedger s (s.modifyClient top.client (·.reduceReservation info.reservationInv)) :=
          keepsLedger_modifyClient fun r hr _ => ⟨r, hr, ClientRec.ledger_reduceReservation r _⟩
        exact h₁.trans (keepsLedger_of_clientMap rfl rfl)
    · cases ht; exact .rfl
  all_goals cases h; exact keepsLedger_of_clientMap rfl rfl

/-- A dispatch pops the head of one client and repairs the heaps. -/
theorem keepsLedger_popProcessRequest {hs : HeapSel} {isDelta : Bool} {res : C × R}
    (h : s.popProcessRequest hs isDelta = .ok (res, t)) : KeepsLedger s t := by
  unfold popProcessRequest at h
  split at h
  · cases h
  rename_i top htop
  split at h
  · cases h
  obtain ⟨top', htag, h⟩ := except_bind_eq_ok.mp h
  obtain ⟨i, -, h⟩ := except_bind_eq_ok.mp h
  obtain ⟨t', hrep, h⟩ := except_bind_eq_ok.mp h
  cases h
  refine .trans ?_ (keepsLedger_repairHeaps hrep)
  exact keepsLedger_modifyClient fun _ _ _ =>
    ⟨top, findClient_mem _ (topRec_findClient s htop), (ledger_tagNewHead htag).trans rfl⟩

theorem InfoFaithful.keepsLedger_pullRequest (hi : InfoFaithful info s) {now : ℚ}
    {p : PullReq C R} (h : s.pullRequest info now = .ok (p, t)) : KeepsLedger s t := by
  unfold PriorityQueueBase.pullRequest at h
  obtain ⟨⟨next, t₁⟩, hnext, h⟩ := except_bind_eq_ok.mp h
  have h₁ := hi.keepsLedger_doNextRequest hnext
  dsimp only at h
  split at h
  · cases h; exact h₁
  · cases h; exact h₁
  · split at h
    all_goals first
      | cases h
      | obtain ⟨⟨⟨c₀, r⟩, t₂⟩, hpop, h⟩ := except_bind_eq_ok.mp h
        cases h
        exact h₁.trans (keepsLedger_popProcessRequest hpop)

/-- The filter's pass over one client changes that client's queue only. -/
theorem keepsLedger_filterClient (f : List R → R → Bool) (vb : Bool)
    (acc : Bool × (List R × List (C × R))) (c : C) :
    KeepsLedger s (s.filterClient f vb acc c).1 := by
  unfold filterClient
  split
  · exact .rfl
  · rename_i client hclient
    dsimp only
    have hl : (client.removeByReqFilter (accumFilter f c) acc.2 vb).1.ledger = client.ledger := rfl
    generalize client.removeByReqFilter (accumFilter f c) acc.2 vb = res at hl
    have h₁ : KeepsLedger s (s.modifyClient c fun _ => res.1) :=
      keepsLedger_modifyClient fun _ _ _ => ⟨client, findClient_mem _ hclient, hl⟩
    split
    · exact h₁.trans (keepsLedger_adjustClass _ _)
    · exact h₁

theorem keepsLedger_removeByReqFilter (f : List R → R → Bool) (vb : Bool) :
    KeepsLedger s (s.removeByReqFilter f vb).1 :=
  List.foldlRecOn (motive := fun acc => KeepsLedger s acc.1) _ _ _ .rfl
    fun (acc : PriorityQueueBase C R × Bool × (List R × List (C × R))) h c _ =>
      h.trans (keepsLedger_filterClient f vb acc.2 c)

theorem keepsLedger_realignIdle (c : C) (time : ℚ) : KeepsLedger s (s.realignIdle c time) := by
  unfold realignIdle
  split
  · split
    · exact keepsLedger_modifyClient fun r hr _ => ⟨r, hr, Eq.refl _⟩
    · exact .rfl
  · exact .rfl

theorem keepsLedger_queueRequest {client r₀ : ClientRec C R}
    (hc : r₀ ∈ s.clientMap) (hl : client.ledger = r₀.ledger) (tag : RequestTag) (request : R)
    (p : ReqParams) : KeepsLedger s (s.queueRequest client tag request p) := by
  unfold queueRequest
  dsimp only
  have h₁ : KeepsLedger s (s.modifyClient client.client fun _ =>
      client.addRequest tag client.client request) :=
    keepsLedger_modifyClient fun _ _ _ => ⟨r₀, hc, hl⟩
  refine .trans ?_ (keepsLedger_adjustClass _ _)
  refine .trans ?_ (keepsLedger_modifyClient fun r hr _ => ⟨r, hr, Eq.refl _⟩)
  split
  · exact h₁.trans (keepsLedger_adjustClass _ _)
  · exact h₁

end Moves

/-! ## The recomputation and the operations -/

section Operations

/-- The recomputation gives every record its resource from the new `total_wgt`. -/
theorem resourcesCurrent_addTotalWgtAndUpdateClientRes (w : ℚ) :
    (s.addTotalWgtAndUpdateClientRes w).ResourcesCurrent := by
  intro r hr _
  obtain ⟨r₀, -, rfl⟩ := List.mem_map.mp hr
  rfl

variable [LinearOrder C]

/-- Creating a client not of class O ends with the recomputation; one of class O is not read. -/
theorem ResourcesCurrent.createClient (hs : s.ResourcesCurrent) (i : ClientInfo) (c : C) :
    (s.createClient i c).ResourcesCurrent := by
  unfold PriorityQueueBase.createClient
  dsimp only
  split
  · exact resourcesCurrent_addTotalWgtAndUpdateClientRes _
  · rename_i hO
    generalize hX : s.forHeaps (HeapSel.ofClass i.clientType) (fun s h => s.heapPush h c) = X
    have hXs : X.ResourcesCurrent :=
      hX ▸ hs.keeps (keepsLedger_forHeaps _ (fun _ _ => rfl) fun _ _ => rfl)
    intro r hr hr'
    rcases (List.mem_orderedInsert _).mp hr with rfl | hr
    · exact absurd (not_not.mp hO) hr'
    · exact hXs r hr hr'

/-- `do_clean`'s turn for one client: an erase keeps the other records, and is followed by the
recomputation when it subtracts a weight. -/
theorem ResourcesCurrent.cleanClient (hs : s.ResourcesCurrent) (e i : ℕ) (c : C) :
    (s.cleanClient e i c).ResourcesCurrent := by
  unfold PriorityQueueBase.cleanClient
  split
  · exact hs
  · rename_i r hr
    have hd : KeepsLedger s (s.deleteFromHeaps r) :=
      keepsLedger_forHeaps _ (fun _ _ => rfl) fun _ _ => rfl
    have herase : ((s.deleteFromHeaps r).eraseClient c).ResourcesCurrent :=
      hs.keeps (hd.trans (keepsLedger_eraseClient c))
    split
    · dsimp only
      split
      · exact herase
      · split
        · exact resourcesCurrent_addTotalWgtAndUpdateClientRes _
        · exact herase
    · split
      · exact hs.keeps (keepsLedger_modifyClient fun r hr _ => ⟨r, hr, Eq.refl _⟩)
      · exact hs

theorem ResourcesCurrent.doClean (hs : s.ResourcesCurrent) {now : ℚ}
    (h : s.doClean now = .ok t) : t.ResourcesCurrent := by
  unfold PriorityQueueBase.doClean at h
  obtain ⟨⟨pts, ep⟩, -, h⟩ := except_bind_eq_ok.mp h
  cases h
  have h₀ : ({ s with cleanMarkPoints := pts } : PriorityQueueBase C R).ResourcesCurrent :=
    hs.keeps (keepsLedger_of_clientMap rfl rfl)
  split
  · exact List.foldlRecOn (motive := ResourcesCurrent) _ _ _ h₀
      fun _ hu c _ => hu.cleanClient _ _ c
  · exact h₀

/-- `add_request` with any callback: the client is created if it is new, and the request is
queued without touching a ledger. -/
theorem ResourcesCurrent.doAddRequest (hs : s.ResourcesCurrent) {infoF : C → ClientInfo}
    {req : R} {c₀ : C} {p : ReqParams} {time : ℚ}
    (h : s.doAddRequest infoF req c₀ p time = .ok t) : t.ResourcesCurrent := by
  have h₁ : (s.admitClient infoF c₀ time).ResourcesCurrent := by
    unfold admitClient
    dsimp only
    refine ResourcesCurrent.keeps ?_ (keepsLedger_realignIdle c₀ time)
    have hs' : ({ s with tick := s.tick + 1 } : PriorityQueueBase C R).ResourcesCurrent :=
      hs.keeps (keepsLedger_of_clientMap rfl rfl)
    split
    · exact hs'
    · exact hs'.createClient _ _
  unfold PriorityQueueBase.doAddRequest at h
  dsimp only at h
  split at h
  · cases h
  · rename_i client hclient
    obtain ⟨⟨client', tag⟩, htag, rfl⟩ := except_map_eq_ok.mp h
    have hl : client'.ledger = client.ledger := by
      rcases newRequestTag_fst htag with e | ⟨_, e⟩ <;>
        exact (congrArg ClientRec.ledger e).trans rfl
    exact h₁.keeps (keepsLedger_queueRequest (findClient_mem _ hclient) hl tag req p)

/-- `remove_by_client` ends with the recomputation, or keeps every ledger for a client of
class O. -/
theorem ResourcesCurrent.removeByClient (hs : s.ResourcesCurrent) (c : C) (rev : Bool) :
    (s.removeByClient c rev).1.ResourcesCurrent := by
  unfold PriorityQueueBase.removeByClient
  split
  · exact hs
  · dsimp only
    split
    · exact resourcesCurrent_addTotalWgtAndUpdateClientRes _
    · refine hs.keeps (.trans ?_ (keepsLedger_adjustClass _ _))
      exact keepsLedger_modifyClient fun r hr _ => ⟨r, hr, Eq.refl _⟩

/-- `update_client_info`, with any callback, ends with the recomputation unless the new class is
O, and then the record it changes is not read. -/
theorem ResourcesCurrent.updateClientInfo (hs : s.ResourcesCurrent) (infoF : C → ClientInfo)
    (c : C) : (s.updateClientInfo infoF c).ResourcesCurrent := by
  unfold PriorityQueueBase.updateClientInfo
  split
  · exact hs
  · dsimp only
    split
    · exact resourcesCurrent_addTotalWgtAndUpdateClientRes _
    · rename_i hO
      intro r' hr' hr'O
      obtain ⟨r, hr, rfl⟩ := List.mem_map.mp hr'
      by_cases hrc : r.client = c
      · rw [if_pos hrc] at hr'O
        exact absurd (not_not.mp hO) hr'O
      · rw [if_neg hrc] at hr'O ⊢
        exact hs r hr hr'O

variable {info : C → ClientInfo}

/-- The step lemma: an operation whose callback is `info` keeps the resources current, from a
state that holds `info`'s infos. -/
theorem ResourcesCurrent.step {op : Op C R} {out : Out C R} (hop : ∀ f ∈ op.callback, f = info)
    (hs : s.ResourcesCurrent) (hi : InfoFaithful info s) (h : s.step op = .ok (out, t)) :
    t.ResourcesCurrent :=
  step_preserves hop hs h hs.doAddRequest (fun hp => hs.keeps (hi.keepsLedger_pullRequest hp))
    (fun {c rev} _ => hs.removeByClient c rev)
    (fun f vb => hs.keeps (keepsLedger_removeByReqFilter f vb)) (hs.updateClientInfo info)
    (by rw [hi.updateClientInfos_eq]; exact hs) hs.doClean

/-- **The resources stay current over runs with one callback.** In every run from the
constructor's state whose operations all call one callback `info`, every client not of class O
has the resource `system_capacity * weight * win_size / total_wgt`, with its weight and the
current `total_wgt`. -/
theorem run_resourcesCurrent {b : ℕ} {idleAge eraseAge checkTime : ℚ} {alb : Bool}
    {at' cap win : ℚ} {s₀ s : PriorityQueueBase C R} {ops : List (Op C R)}
    {outs : List (Out C R)} (h₀ : init b idleAge eraseAge checkTime alb at' cap win = .ok s₀)
    (hops : ∀ op ∈ ops, ∀ f ∈ op.callback, f = info) (h : s₀.run ops = .ok (outs, s)) :
    s.ResourcesCurrent :=
  (run_preserves (P := fun u => InfoFaithful info u ∧ u.ResourcesCurrent)
    (fun op hop _ _ _ hu hstep => ⟨infoFaithful_keptWith.step (hops op hop) hu.1 hstep,
      hu.2.step (hops op hop) hu.1 hstep⟩)
    ⟨infoFaithful_of_clientMap_nil (init_eq_ok h₀).1, (init_invariants h₀).2.2.2.2⟩ h).2

attribute [local semireducible] Rat.add Rat.mul Rat.inv Rat.sub

/-- Client 1 of class R with weight 2 and client 2 of class B with weight 1 queue a request each,
a poll serves one, and `remove_by_client` takes client 2's weight off `total_wgt`: both resources
are recomputed from the total 2. -/
theorem run_resourcesCurrent_after_remove :
    ∃ (s₀ : PriorityQueueBase ℕ ℕ) (outs : List (Out ℕ ℕ)) (s : PriorityQueueBase ℕ ℕ),
      init 2 600 900 360 false 0 10 1 = .ok s₀ ∧
      s₀.run
        [.addRequest (fun c => if c = 1 then ⟨1, 2, 0, .R⟩ else ⟨0, 1, 0, .B⟩) 100 1 {} 0,
        .addRequest (fun c => if c = 1 then ⟨1, 2, 0, .R⟩ else ⟨0, 1, 0, .B⟩) 200 2 {} 0,
        .pullRequest (fun c => if c = 1 then ⟨1, 2, 0, .R⟩ else ⟨0, 1, 0, .B⟩) 1,
        .removeByClient 2 false] = .ok (outs, s) ∧
      s.totalWgt = 2 ∧ s.ResourcesCurrent := by
  refine ⟨_, ?_, ?_, rfl, ?h, ?_, @run_resourcesCurrent ℕ ℕ _
    (fun c => if c = 1 then ⟨1, 2, 0, .R⟩ else ⟨0, 1, 0, .B⟩) 2 600 900 360 false 0 10 1 _ _ _ _
    rfl (by simp [Op.callback]) ?h⟩
  case h => exact rfl
  rfl

end Operations

end PriorityQueueBase

end DmclockServer
