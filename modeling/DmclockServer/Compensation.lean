import DmclockServer.Accounting
import DmclockServer.Invariants

/-!
# The compensated infos and the bound on the compensation

`client_info_wrapper` gives the tag arithmetic of an R client its compensated info. That info is
recorded when the client is created and rebuilt at a window roll-over only for a client served at
least 80% of its reservation, so a reservation the callback changes is not passed on to it
(`rollover_keeps_stale_compensated`).

* `KeepsInfo s s'`: `s'` has the compensated infos of `s`, and each record of `s'` has the id, info
  and compensation of a record of `s`. Every part of an operation is such a move except the
  install of the callback's info, the creation of a client and the compensation of the roll-over;
* `KeptUnder f J`: what an invariant needs to be kept by every operation whose callback is `f`
  (`KeptUnder.step`); an operation that calls no callback only moves infos (`keepsInfo_step`);
* `InfoFaithful info`: every record holds `info` of its id, and `CompensatedCurrent`.
  `KeptWith info J` adds it to an invariant kept under the fixed callback `info` (`KeptWith.step`,
  `KeptWith.run`), and `run_compensatedCurrent` concludes for every run with one callback;
* `CompensationBounded`: every R client's compensation is at most a tenth of its reservation (I4).
  `CompensationFloor fs` carries it through runs whose callbacks to come, `fs`, give no client of
  class R a lower reservation than an earlier callback did (`run_compensationBounded`); a callback
  that lowers a reservation leaves a compensation above the new bound
  (`lowered_reservation_keeps_compensation`).

The compensation update adds a negative shortfall to the unsigned `r_compensation`, which wraps,
so an over-served client's compensation is raised to the bound, not lowered
(`overserved_compensation_raised`).
-/

namespace DmclockServer

/-- The `client_info_f` an operation calls, if it calls one. -/
def Op.callback {C R : Type} : Op C R → Option (C → ClientInfo)
  | .addRequest infoF .. | .pullRequest infoF _ | .scheduleRequest infoF .. => some infoF
  | .updateClientInfo infoF _ | .updateClientInfos infoF => some infoF
  | .removeByClient .. | .removeByReqFilter .. | .doClean _ => none

/-- What the compensated info of a record is computed from: its id, info and compensation. -/
def ClientRec.qos {C R : Type} (r : ClientRec C R) : C × ClientInfo × ℕ :=
  (r.client, r.info, r.rCompensation)

theorem ClientRec.qos_eq_of_core {C R : Type} {r r' : ClientRec C R} (h : r'.core = r.core) :
    r'.qos = r.qos := by
  simp only [core, Prod.mk.injEq] at h
  simp [qos, h]

namespace PriorityQueueBase

variable {C R : Type} {s s' s'' : PriorityQueueBase C R}

/-! ## Moves that keep the infos -/

/-- `s'` has the compensated infos of `s`, and each of its records has the id, info and
compensation of a record of `s`. -/
def KeepsInfo (s s' : PriorityQueueBase C R) : Prop :=
  s'.compensatedClientMap = s.compensatedClientMap ∧
    ∀ r' ∈ s'.clientMap, ∃ r ∈ s.clientMap, r'.qos = r.qos

theorem KeepsInfo.rfl : KeepsInfo s s := ⟨Eq.refl _, fun r h => ⟨r, h, Eq.refl _⟩⟩

theorem KeepsInfo.trans (h₁ : KeepsInfo s s') (h₂ : KeepsInfo s' s'') : KeepsInfo s s'' := by
  refine ⟨h₂.1.trans h₁.1, fun r'' h => ?_⟩
  obtain ⟨r', hr', e'⟩ := h₂.2 r'' h
  obtain ⟨r, hr, e⟩ := h₁.2 r' hr'
  exact ⟨r, hr, e'.trans e⟩

theorem keepsInfo_of_map {g : ClientRec C R → ClientRec C R}
    (hg : ∀ r ∈ s.clientMap, ∃ r₀ ∈ s.clientMap, (g r).qos = r₀.qos)
    (hm : s'.clientMap = s.clientMap.map g)
    (hc : s'.compensatedClientMap = s.compensatedClientMap) : KeepsInfo s s' := by
  refine ⟨hc, fun r' h => ?_⟩
  rw [hm, List.mem_map] at h
  obtain ⟨r, hr, rfl⟩ := h
  exact hg r hr

theorem keepsInfo_of_clientMap (hm : s'.clientMap = s.clientMap)
    (hc : s'.compensatedClientMap = s.compensatedClientMap) : KeepsInfo s s' :=
  keepsInfo_of_map (g := id) (fun r hr => ⟨r, hr, Eq.refl _⟩) (by simp [hm]) hc

theorem SameCores.keepsInfo (h : SameCores s s') : KeepsInfo s s' := by
  refine ⟨h.2, fun r' hr' => ?_⟩
  have hmem : r'.core ∈ s.cores := h.1 ▸ List.mem_map_of_mem _ hr'
  obtain ⟨r, hr, e⟩ := List.mem_map.mp hmem
  exact ⟨r, hr, ClientRec.qos_eq_of_core e.symm⟩

theorem keepsInfo_addTotalWgtAndUpdateClientRes (w : ℚ) :
    KeepsInfo s (s.addTotalWgtAndUpdateClientRes w) :=
  keepsInfo_of_map (g := fun r => { r with
      resource := Dbl.quot (s.systemCapacity * r.info.weight * s.winSize) (s.totalWgt + w) })
    (fun r hr => ⟨r, hr, Eq.refl _⟩) rfl rfl

variable [LinearOrder C]

theorem keepsInfo_modifyClient {c : C} {f : ClientRec C R → ClientRec C R}
    (hf : ∀ r ∈ s.clientMap, r.client = c → ∃ r₀ ∈ s.clientMap, (f r).qos = r₀.qos) :
    KeepsInfo s (s.modifyClient c f) :=
  keepsInfo_of_map (g := fun r => if r.client = c then f r else r)
    (fun r hr => by dsimp only; split; exacts [hf r hr ‹_›, ⟨r, hr, Eq.refl _⟩]) rfl rfl

theorem keepsInfo_adjustClass (cls : ClientType) (c : C) : KeepsInfo s (s.adjustClass cls c) :=
  keepsInfo_of_clientMap (by simp) (by simp)

/-! ## The invariant -/

theorem compensated_setCompensated (c₀ : C) (i : ClientInfo) (c : C) :
    (s.setCompensated c₀ i).compensated c = if c = c₀ then some i else s.compensated c := by
  unfold compensated setCompensated
  split
  · subst c; simp
  · rw [List.find?_cons_of_neg _ (by simpa using Ne.symm ‹_›), List.find?_filter]
    congr 1; congr 1; funext p; by_cases h : p.1 = c <;> simp [h, ‹¬c = c₀›]

/-- With the fixed callback `info`: every record holds `info` of its id, and the compensated info
of every R client is its info with its compensation added to the reservation. -/
structure InfoFaithful (info : C → ClientInfo) (s : PriorityQueueBase C R) : Prop where
  infoCurrent : ∀ r ∈ s.clientMap, r.info = info r.client
  compensatedCurrent : s.CompensatedCurrent

variable {info : C → ClientInfo}

theorem InfoFaithful.keeps (hi : InfoFaithful info s) (h : KeepsInfo s s') :
    InfoFaithful info s' := by
  have hc : s'.compensated = s.compensated := by funext c; simp only [compensated, h.1]
  constructor
  · intro r' hr'
    obtain ⟨r, hr, e⟩ := h.2 r' hr'
    simp only [ClientRec.qos, Prod.mk.injEq] at e
    rw [e.1, e.2.1]
    exact hi.infoCurrent r hr
  · intro r' hr' hR
    obtain ⟨r, hr, e⟩ := h.2 r' hr'
    simp only [ClientRec.qos, Prod.mk.injEq] at e
    obtain ⟨h₁, h₂, h₃⟩ := e
    rw [hc, h₁, h₂, h₃]
    exact hi.compensatedCurrent r hr (h₂ ▸ hR)

theorem infoFaithful_of_clientMap_nil (h : s.clientMap = []) : InfoFaithful info s :=
  ⟨by simp [h], by simp [CompensatedCurrent, h]⟩

theorem InfoFaithful.info_of_findClient (hi : InfoFaithful info s) {c : C} {r : ClientRec C R}
    (hr : s.findClient c = some r) : r.info = info c :=
  (hi.infoCurrent r (findClient_mem _ hr)).trans (by rw [findClient_client _ hr])

/-- `client_info_wrapper` gives a record the callback's info, with the compensation added to the
reservation of an R client. -/
theorem InfoFaithful.clientInfoWrapper_eq (hi : InfoFaithful info s) {r : ClientRec C R}
    (hr : r ∈ s.clientMap) :
    s.clientInfoWrapper r = .ok (if (info r.client).clientType = .R then
      ⟨(info r.client).reservation + r.rCompensation, (info r.client).weight,
        (info r.client).limit, .R⟩ else info r.client) := by
  have hinfo := hi.infoCurrent r hr
  unfold clientInfoWrapper
  split
  · rename_i hR
    rw [hi.compensatedCurrent r hr hR, ← hinfo, if_pos hR]
  · rw [← hinfo, if_neg ‹_›]

/-! ## Creating a client and compensating one -/

theorem createClient_infoFaithful {c₀ : C} (hc : s.findClient c₀ = none)
    (hi : InfoFaithful info s) : InfoFaithful info (s.createClient (info c₀) c₀) := by
  have hne : ∀ r ∈ s.clientMap, r.client ≠ c₀ := by simpa [findClient] using hc
  have hins : ∀ t : PriorityQueueBase C R, t.clientMap = s.clientMap →
      t.compensatedClientMap = s.compensatedClientMap → ∀ k,
      InfoFaithful info ((t.insertClient (ClientRec.init c₀ (info c₀) k)).setCompensated c₀
        ⟨(info c₀).reservation, (info c₀).weight, (info c₀).limit, (info c₀).clientType⟩) := by
    intro t hm hcm k
    have hct : t.compensated = s.compensated := by funext c; simp only [compensated, hcm]
    constructor
    · intro r hr
      simp only [setCompensated, insertClient, List.mem_orderedInsert, hm] at hr
      rcases hr with rfl | hr
      · rfl
      · exact hi.infoCurrent r hr
    · intro r hr hR
      simp only [setCompensated, insertClient, List.mem_orderedInsert, hm] at hr
      rw [compensated_setCompensated]
      rcases hr with rfl | hr
      · simp_all [ClientRec.init]
      · rw [if_neg (hne r hr)]
        exact (congrFun hct r.client).trans (hi.compensatedCurrent r hr hR)
  have h₁ := hins (s.forHeaps (HeapSel.ofClass (info c₀).clientType) fun s h => s.heapPush h c₀)
    (foldl_keeps s (·.clientMap) _ fun _ _ => rfl)
    (foldl_keeps s (·.compensatedClientMap) _ fun _ _ => rfl)
    (s.forHeaps (HeapSel.ofClass (info c₀).clientType) fun s h => s.heapPush h c₀).tick
  unfold createClient
  dsimp only
  split
  · exact h₁.keeps (keepsInfo_addTotalWgtAndUpdateClientRes _)
  · exact h₁

/-- Setting the compensation of `c` and rebuilding its compensated info from its info, as
`compensate` does. -/
theorem setRCompensation_infoFaithful {c : C} {client : ClientRec C R}
    (hclient : s.findClient c = some client) (hi : InfoFaithful info s) (rc : ℕ) :
    InfoFaithful info ((s.modifyClient c fun r => { r with rCompensation := rc }).setCompensated c
      ⟨client.info.reservation + rc, client.info.weight, client.info.limit, .R⟩) := by
  have hold := hi.info_of_findClient hclient
  constructor
  · intro r' hr'
    obtain ⟨r, hr, rfl⟩ := List.mem_map.mp hr'
    split <;> exact hi.infoCurrent r hr
  · intro r' hr' hR
    obtain ⟨r, hr, rfl⟩ := List.mem_map.mp hr'
    rw [compensated_setCompensated]
    by_cases hrc : r.client = c
    · simp only [hrc, if_true]
      rw [hi.infoCurrent r hr, hrc, ← hold]
    · simp only [hrc, if_false] at hR ⊢
      exact hi.compensatedCurrent r hr hR

theorem compensate_infoFaithful (hi : InfoFaithful info s) (c : C) :
    InfoFaithful info (s.compensate c) := by
  unfold compensate
  split
  · exact hi
  · exact setRCompensation_infoFaithful ‹_› hi _

/-! ## Invariants kept by the operations that call a callback -/

/-- What an invariant `J` needs to be kept by every operation whose callback is `f`, whatever infos
the records hold: it is kept by the moves that keep the infos, by installing `f`'s info in the
records of one client or of every client, by the creation of a client with `f`'s info, and by the
compensation update of an R client. -/
structure KeptUnder (f : C → ClientInfo) (J : PriorityQueueBase C R → Prop) : Prop where
  keeps : ∀ {s s'}, J s → KeepsInfo s s' → J s'
  install : ∀ {s} (c : C), J s → J (s.modifyClient c fun r => { r with info := f c })
  installAll : ∀ {s}, J s → J (s.updateClientInfos f)
  createClient : ∀ {s} {c : C}, s.findClient c = none → J s → J (s.createClient (f c) c)
  compensate : ∀ {s} {c : C} {r : ClientRec C R}, s.findClient c = some r →
    r.info.clientType = .R → J s → J (s.compensate c)

variable {f : C → ClientInfo} {J : PriorityQueueBase C R → Prop}

/-- The info update of the roll-over: a migration between heaps, the install, and a recomputation
of the resources. -/
theorem KeptUnder.installInfo (hJ : KeptUnder f J) (hs : J s) (c : C) (old : ClientInfo) :
    J (s.installInfo c old (f c)) := by
  unfold PriorityQueueBase.installInfo
  split
  · dsimp only
    have h₁ : J (if (f c).clientType ≠ old.clientType then s.moveToAnotherHeap c (f c) else s) := by
      split
      · exact hJ.keeps hs (moveToAnotherHeap_sameCores c _).keepsInfo
      · exact hs
    split
    · exact hJ.keeps (hJ.install c h₁) (keepsInfo_addTotalWgtAndUpdateClientRes _)
    · exact hJ.install c h₁
  · exact hs

theorem KeptUnder.rollClient (hJ : KeptUnder f J) (hs : J s) (c : C) : J (s.rollClient f c) := by
  unfold PriorityQueueBase.rollClient
  split
  · exact hs
  · rename_i client _
    refine hJ.keeps ?_ (keepsInfo_modifyClient fun r hr _ => ⟨r, hr, Eq.refl _⟩)
    have hi := hJ.installInfo hs c client.info
    unfold checkCompensation
    split
    · split
      · exact hJ.compensate ‹_› ‹_ ∧ _›.1 hi
      · exact hi
    · exact hi

theorem KeptUnder.windowRollover (hJ : KeptUnder f J) (hs : J s) (now : ℚ) :
    J (s.windowRollover f now) :=
  List.foldlRecOn (motive := J) _ _ _ (hJ.keeps hs (keepsInfo_of_clientMap rfl rfl))
    fun _ ht c _ => hJ.rollClient ht c

theorem KeptUnder.doNextRequest (hJ : KeptUnder f J) {now : ℚ} {n : NextReq} (hs : J s)
    (h : s.doNextRequest f now = .ok (n, s')) : J s' := by
  unfold PriorityQueueBase.doNextRequest at h
  split at h
  · cases h; exact hs
  · refine hJ.keeps ?_ (dispatchLadder_sameCores h).keepsInfo
    split
    · exact hJ.windowRollover hs now
    · exact hs

theorem popProcessRequest_keepsInfo {hs : HeapSel} {isDelta : Bool} {res : C × R}
    (h : s.popProcessRequest hs isDelta = .ok (res, s')) : KeepsInfo s s' := by
  unfold popProcessRequest at h
  split at h
  · cases h
  rename_i top htop
  split at h
  · cases h
  obtain ⟨top', htag, h⟩ := except_bind_eq_ok.mp h
  obtain ⟨i, -, h⟩ := except_bind_eq_ok.mp h
  obtain ⟨t, hrep, h⟩ := except_bind_eq_ok.mp h
  cases h
  exact (keepsInfo_modifyClient fun _ _ _ => ⟨top, findClient_mem _ (topRec_findClient s htop),
    (ClientRec.qos_eq_of_core (tagNewHead_core htag)).trans (Eq.refl top.qos)⟩).trans
    (repairHeaps_sameCores hrep).keepsInfo

theorem KeptUnder.pullRequest (hJ : KeptUnder f J) {now : ℚ} {p : PullReq C R} (hs : J s)
    (h : s.pullRequest f now = .ok (p, s')) : J s' := by
  unfold PriorityQueueBase.pullRequest at h
  obtain ⟨⟨next, s₁⟩, hnext, h⟩ := except_bind_eq_ok.mp h
  have hs₁ := hJ.doNextRequest hs hnext
  dsimp only at h
  split at h
  · cases h; exact hs₁
  · cases h; exact hs₁
  · split at h
    all_goals first
      | cases h
      | obtain ⟨⟨⟨c₀, r⟩, s₂⟩, hpop, h⟩ := except_bind_eq_ok.mp h
        cases h
        exact hJ.keeps hs₁ (popProcessRequest_keepsInfo hpop)

theorem KeptUnder.doAddRequest (hJ : KeptUnder f J) {r : R} {c₀ : C} {p : ReqParams}
    {time : ℚ} (hs : J s) (h : s.doAddRequest f r c₀ p time = .ok s') : J s' := by
  have hs₁ : J (s.admitClient f c₀ time) := by
    unfold admitClient
    dsimp only
    refine hJ.keeps ?_ (realignIdle_sameCores c₀ time).keepsInfo
    have hs' : J { s with tick := s.tick + 1 } := hJ.keeps hs (keepsInfo_of_clientMap rfl rfl)
    split
    · exact hs'
    · exact hJ.createClient (Option.not_isSome_iff_eq_none.mp ‹_›) hs'
  unfold PriorityQueueBase.doAddRequest at h
  dsimp only at h
  split at h
  · cases h
  · rename_i client hclient
    obtain ⟨⟨client', tag⟩, htag, rfl⟩ := except_map_eq_ok.mp h
    have hq : ∃ r₀ ∈ (s.admitClient f c₀ time).clientMap, client'.qos = r₀.qos :=
      ⟨client, findClient_mem _ hclient, ClientRec.qos_eq_of_core (newRequestTag_core htag)⟩
    have hadd := keepsInfo_modifyClient (c := client'.client)
      (f := fun _ => client'.addRequest tag client'.client r) fun _ _ _ => hq
    refine hJ.keeps hs₁ ?_
    unfold queueRequest
    dsimp only
    refine .trans ?_ (keepsInfo_adjustClass _ _)
    refine .trans ?_ (keepsInfo_modifyClient fun r hr _ => ⟨r, hr, Eq.refl _⟩)
    split
    · exact hadd.trans (keepsInfo_adjustClass _ _)
    · exact hadd

theorem KeptUnder.updateClientInfo (hJ : KeptUnder f J) (hs : J s) (c₀ : C) :
    J (s.updateClientInfo f c₀) := by
  unfold PriorityQueueBase.updateClientInfo
  split
  · exact hs
  · dsimp only
    split
    · exact hJ.keeps (hJ.install c₀ hs) (keepsInfo_addTotalWgtAndUpdateClientRes _)
    · exact hJ.install c₀ hs

/-! ## The operations that call no callback -/

theorem removeByClient_keepsInfo (c₀ : C) (rev : Bool) :
    KeepsInfo s (s.removeByClient c₀ rev).1 := by
  unfold removeByClient
  split
  · exact .rfl
  · dsimp only
    have h₁ := (keepsInfo_modifyClient (s := s) (c := c₀) (f := fun r => { r with requests := [] })
      fun r hr _ => ⟨r, hr, Eq.refl _⟩).trans
        (keepsInfo_adjustClass ‹ClientRec C R›.info.clientType c₀)
    split
    · exact h₁.trans (keepsInfo_addTotalWgtAndUpdateClientRes _)
    · exact h₁

theorem filterClient_keepsInfo (f : List R → R → Bool) (vb : Bool)
    (acc : Bool × (List R × List (C × R))) (c₀ : C) :
    KeepsInfo s (s.filterClient f vb acc c₀).1 := by
  unfold filterClient
  split
  · exact .rfl
  · rename_i client hclient
    dsimp only
    have hq : (client.removeByReqFilter (accumFilter f c₀) acc.2 vb).1.qos = client.qos := rfl
    generalize client.removeByReqFilter (accumFilter f c₀) acc.2 vb = res at hq
    have h₁ : KeepsInfo s (s.modifyClient c₀ fun _ => res.1) :=
      keepsInfo_modifyClient fun _ _ _ => ⟨client, findClient_mem _ hclient, hq⟩
    split
    · exact h₁.trans (keepsInfo_adjustClass _ _)
    · exact h₁

theorem removeByReqFilter_keepsInfo (f : List R → R → Bool) (vb : Bool) :
    KeepsInfo s (s.removeByReqFilter f vb).1 :=
  List.foldlRecOn (motive := fun acc => KeepsInfo s acc.1) _ _ _ .rfl
    fun (acc : PriorityQueueBase C R × Bool × (List R × List (C × R))) h c _ =>
      h.trans (filterClient_keepsInfo f vb acc.2 c)

theorem cleanClient_keepsInfo (e i : ℕ) (c₀ : C) : KeepsInfo s (s.cleanClient e i c₀) := by
  unfold cleanClient
  split
  · exact .rfl
  · rename_i r hr
    have herase : KeepsInfo s ((s.deleteFromHeaps r).eraseClient c₀) :=
      ⟨by simp [eraseClient], fun r' h =>
        ⟨r', by simpa [eraseClient] using (List.mem_filter.mp h).1,
        Eq.refl _⟩⟩
    split
    · dsimp only
      split
      · exact herase
      · split
        · exact herase.trans (keepsInfo_addTotalWgtAndUpdateClientRes _)
        · exact herase
    · split
      · exact keepsInfo_modifyClient fun r hr _ => ⟨r, hr, Eq.refl _⟩
      · exact .rfl

theorem doClean_keepsInfo {now : ℚ} (h : s.doClean now = .ok s') : KeepsInfo s s' := by
  unfold doClean at h
  obtain ⟨⟨pts, ep⟩, -, h⟩ := except_bind_eq_ok.mp h
  cases h
  have h₀ : KeepsInfo s { s with cleanMarkPoints := pts } := keepsInfo_of_clientMap rfl rfl
  split
  · exact List.foldlRecOn (motive := KeepsInfo s) _ _ _ h₀
      fun _ ht c _ => ht.trans (cleanClient_keepsInfo _ _ c)
  · exact h₀

/-- An operation that calls no callback only moves infos. -/
theorem keepsInfo_step {op : Op C R} {out : Out C R} (hop : op.callback = none)
    (h : s.step op = .ok (out, s')) : KeepsInfo s s' := by
  cases op with
  | removeByClient c₀ rev => cases h; exact removeByClient_keepsInfo c₀ rev
  | removeByReqFilter f vb => cases h; exact removeByReqFilter_keepsInfo f vb
  | doClean => exact doClean_keepsInfo (step_eq_ok s h).2
  | _ => cases hop

/-- The step lemma: an operation whose callback is `f` keeps every invariant kept under `f`. -/
theorem KeptUnder.step (hJ : KeptUnder f J) {op : Op C R} {out : Out C R}
    (hop : op.callback = some f) (hs : J s) (h : s.step op = .ok (out, s')) : J s' := by
  cases op with
  | addRequest => cases hop; exact hJ.doAddRequest hs (step_eq_ok s h).2
  | pullRequest =>
    cases hop
    obtain ⟨p, -, hp⟩ := step_eq_ok s h
    exact hJ.pullRequest hs hp
  | scheduleRequest =>
    cases hop
    obtain ⟨p, -, hp⟩ := step_eq_ok s h
    rcases scheduleRequest_eq_ok s hp with ⟨-, -, rfl⟩ | ⟨-, hp⟩
    · exact hs
    · exact hJ.pullRequest hs hp
  | updateClientInfo _ c₀ => cases hop; cases h; exact hJ.updateClientInfo hs c₀
  | updateClientInfos => cases hop; cases h; exact hJ.installAll hs
  | _ => cases hop

/-! ## Invariants kept with a fixed callback -/

/-- What an invariant `J` that includes `InfoFaithful info` needs to be kept by every operation
that calls `info`: it is kept by the moves that keep the infos, by the creation of a client with
its callback info, and by the compensation update of the roll-over. -/
structure KeptWith (info : C → ClientInfo) (J : PriorityQueueBase C R → Prop) : Prop where
  faithful : ∀ {s}, J s → InfoFaithful info s
  keeps : ∀ {s s'}, J s → KeepsInfo s s' → J s'
  createClient : ∀ {s} {c : C}, s.findClient c = none → J s → J (s.createClient (info c) c)
  compensate : ∀ {s} (c : C), J s → J (s.compensate c)

theorem infoFaithful_keptWith : KeptWith (R := R) info (InfoFaithful info) :=
  ⟨id, InfoFaithful.keeps, createClient_infoFaithful, fun c hi => compensate_infoFaithful hi c⟩

/-- Records that hold the callback's infos take them again without a change. -/
theorem KeptWith.under (hJ : KeptWith info J) : KeptUnder info J where
  keeps := hJ.keeps
  install c hs := hJ.keeps hs (keepsInfo_modifyClient fun r hr hrc =>
    ⟨r, hr, by simp [ClientRec.qos, (hJ.faithful hs).infoCurrent r hr, hrc]⟩)
  installAll hs := hJ.keeps hs (keepsInfo_of_map (g := fun r => { r with info := info r.client })
    (fun r hr => ⟨r, hr, by simp [ClientRec.qos, (hJ.faithful hs).infoCurrent r hr]⟩) rfl rfl)
  createClient := hJ.createClient
  compensate {_ c _} _ _ hs := hJ.compensate c hs

/-- The step lemma: an operation whose callback is `info` keeps every invariant kept with `info`. -/
theorem KeptWith.step (hJ : KeptWith info J) {op : Op C R} {out : Out C R}
    (hop : ∀ f ∈ op.callback, f = info) (hs : J s) (h : s.step op = .ok (out, s')) : J s' := by
  cases hc : op.callback with
  | none => exact hJ.keeps hs (keepsInfo_step hc h)
  | some f => exact hJ.under.step (hc.trans (congrArg some (hop f hc))) hs h

/-- The run lemma: from the constructor's state, a run whose operations all call `info` ends in
a state of every invariant kept with `info` that holds of the states without clients. -/
theorem KeptWith.run (hJ : KeptWith info J)
    (hnil : ∀ {t : PriorityQueueBase C R}, t.clientMap = [] → J t)
    {b : ℕ} {idleAge eraseAge checkTime : ℚ} {alb : Bool} {at' cap win : ℚ}
    {s₀ s : PriorityQueueBase C R} {ops : List (Op C R)} {outs : List (Out C R)}
    (h₀ : init b idleAge eraseAge checkTime alb at' cap win = .ok s₀)
    (hops : ∀ op ∈ ops, ∀ f ∈ op.callback, f = info) (h : s₀.run ops = .ok (outs, s)) : J s :=
  run_preserves (fun op hop _ _ _ hs hstep => hJ.step (hops op hop) hs hstep)
    (hnil (init_eq_ok h₀).1) h

/-- **The compensated infos follow a fixed callback.** In every run from the constructor's state
whose operations all call one callback `info`, every R client's compensated info is its info with
its compensation added to the reservation, and `client_info_wrapper` gives every client the
callback's info, with the compensation added to the reservation of an R client. -/
theorem run_compensatedCurrent {b : ℕ} {idleAge eraseAge checkTime : ℚ} {alb : Bool}
    {at' cap win : ℚ} {s₀ s : PriorityQueueBase C R} {ops : List (Op C R)}
    {outs : List (Out C R)} (h₀ : init b idleAge eraseAge checkTime alb at' cap win = .ok s₀)
    (hops : ∀ op ∈ ops, ∀ f ∈ op.callback, f = info) (h : s₀.run ops = .ok (outs, s)) :
    s.CompensatedCurrent ∧
      ∀ r ∈ s.clientMap, s.clientInfoWrapper r = .ok (if (info r.client).clientType = .R then
        ⟨(info r.client).reservation + r.rCompensation, (info r.client).weight,
          (info r.client).limit, .R⟩ else info r.client) := by
  have hi := infoFaithful_keptWith.run infoFaithful_of_clientMap_nil h₀ hops h
  exact ⟨hi.compensatedCurrent, fun r hr => hi.clientInfoWrapper_eq hr⟩

/-! ## The bound on the compensation -/

/-- Every R client's compensation is at most a tenth of its reservation, the bound the roll-over
clamps it to (I4; `r_compensation` is unsigned, so it is never below 0). -/
def CompensationBounded (s : PriorityQueueBase C R) : Prop :=
  ∀ r ∈ s.clientMap, r.info.clientType = .R →
    (r.rCompensation : ℚ) ≤ r.info.reservation * (1 / 10)

instance (s : PriorityQueueBase C R) : Decidable s.CompensationBounded :=
  inferInstanceAs (Decidable (∀ r ∈ s.clientMap, _))

/-- `g` gives no client of class R a lower reservation than `f` gives it in class R. -/
def ReservationNotLowered (f g : C → ClientInfo) : Prop :=
  ∀ c, (f c).clientType = .R → (g c).clientType = .R → (f c).reservation ≤ (g c).reservation

/-- A compensation `k` is within a tenth of the reservation of `i`, when `i` is of class R. -/
def CompensationWithin (i : ClientInfo) (k : ℕ) : Prop :=
  i.clientType = .R → (k : ℚ) ≤ i.reservation * (1 / 10)

/-- The compensation bound with the callbacks still to come, `fs`: the records of one id share
their info; an R record's reservation is not negative and no callback of `fs` gives its client a
lower one in class R; and every record's compensation is 0, or within a tenth of the reservation
of its info and of every info a callback of `fs` gives its client. -/
structure CompensationFloor (fs : List (C → ClientInfo)) (s : PriorityQueueBase C R) : Prop where
  sameInfo : ∀ r₁ ∈ s.clientMap, ∀ r₂ ∈ s.clientMap, r₁.client = r₂.client → r₁.info = r₂.info
  nonneg : ∀ r ∈ s.clientMap, r.info.clientType = .R → 0 ≤ r.info.reservation
  below : ∀ r ∈ s.clientMap, ∀ g ∈ fs, r.info.clientType = .R → (g r.client).clientType = .R →
    r.info.reservation ≤ (g r.client).reservation
  within : ∀ r ∈ s.clientMap, r.rCompensation = 0 ∨
    ∀ i ∈ r.info :: fs.map (· r.client), CompensationWithin i r.rCompensation

variable {fs : List (C → ClientInfo)}

omit [LinearOrder C] in
theorem CompensationFloor.compensationBounded (hs : CompensationFloor fs s) :
    s.CompensationBounded := by
  intro r hr hR
  rcases hs.within r hr with h0 | hw
  · rw [h0, Nat.cast_zero]
    exact mul_nonneg (hs.nonneg r hr hR) (by norm_num)
  · exact hw r.info (.head _) hR

omit [LinearOrder C] in
/-- The callback of the operation just run drops out of the callbacks to come. -/
theorem CompensationFloor.tail (hs : CompensationFloor (f :: fs) s) : CompensationFloor fs s :=
  ⟨hs.sameInfo, hs.nonneg, fun r hr g hg => hs.below r hr g (.tail _ hg),
    fun r hr => (hs.within r hr).imp_right fun hw i hi => hw i (by
      rcases List.mem_cons.mp hi with rfl | hi
      · exact .head _
      · exact .tail _ (.tail _ hi))⟩

omit [LinearOrder C] in
theorem CompensationFloor.keeps (hs : CompensationFloor fs s) (h : KeepsInfo s s') :
    CompensationFloor fs s' := by
  have key (r' : ClientRec C R) (hr' : r' ∈ s'.clientMap) : ∃ r ∈ s.clientMap,
      r'.client = r.client ∧ r'.info = r.info ∧ r'.rCompensation = r.rCompensation := by
    obtain ⟨r, hr, e⟩ := h.2 r' hr'
    simp only [ClientRec.qos, Prod.mk.injEq] at e
    exact ⟨r, hr, e⟩
  refine ⟨fun r₁ h₁ r₂ h₂ he => ?_, fun r' hr' => ?_, fun r' hr' => ?_, fun r' hr' => ?_⟩
  · obtain ⟨q₁, hq₁, e₁, i₁, -⟩ := key r₁ h₁
    obtain ⟨q₂, hq₂, e₂, i₂, -⟩ := key r₂ h₂
    rw [i₁, i₂]
    exact hs.sameInfo q₁ hq₁ q₂ hq₂ (e₁.symm.trans (he.trans e₂))
  · obtain ⟨q, hq, -, i, -⟩ := key r' hr'
    rw [i]
    exact hs.nonneg q hq
  · obtain ⟨q, hq, e, i, -⟩ := key r' hr'
    rw [i, e]
    exact hs.below q hq
  · obtain ⟨q, hq, e, i, k⟩ := key r' hr'
    rw [i, e, k]
    exact hs.within q hq

omit [LinearOrder C] in
/-- Installing `f`'s info in the records of the ids `p` holds, as `update_client_info(s)` and the
roll-over do, with `f` one of the callbacks to come. -/
theorem CompensationFloor.mapInfo (hs : CompensationFloor fs s)
    (hf : ∀ c, (f c).clientType = .R → 0 ≤ (f c).reservation)
    (hlow : ∀ g ∈ fs, ReservationNotLowered f g) (hmem : f ∈ fs) (p : C → Prop) [DecidablePred p]
    (hm : s'.clientMap = s.clientMap.map fun r =>
      if p r.client then { r with info := f r.client } else r) :
    CompensationFloor fs s' := by
  have key (r' : ClientRec C R) (hr' : r' ∈ s'.clientMap) : ∃ r ∈ s.clientMap,
      r'.client = r.client ∧ r'.rCompensation = r.rCompensation ∧
        (p r.client ∧ r'.info = f r.client ∨ ¬ p r.client ∧ r'.info = r.info) := by
    rw [hm] at hr'
    obtain ⟨r, hr, rfl⟩ := List.mem_map.mp hr'
    exact ⟨r, hr, by by_cases h : p r.client <;> simp [h]⟩
  refine ⟨fun r₁ h₁ r₂ h₂ he => ?_, fun r' hr' => ?_, fun r' hr' g hg => ?_, fun r' hr' => ?_⟩
  · obtain ⟨q₁, hq₁, e₁, -, i₁⟩ := key r₁ h₁
    obtain ⟨q₂, hq₂, e₂, -, i₂⟩ := key r₂ h₂
    have he' : q₁.client = q₂.client := e₁.symm.trans (he.trans e₂)
    rcases i₁ with ⟨p₁, i₁⟩ | ⟨p₁, i₁⟩ <;> rcases i₂ with ⟨p₂, i₂⟩ | ⟨p₂, i₂⟩ <;> rw [i₁, i₂]
    · rw [he']
    · exact absurd (show p q₂.client from he' ▸ p₁) p₂
    · exact absurd (show p q₁.client from he' ▸ p₂) p₁
    · exact hs.sameInfo q₁ hq₁ q₂ hq₂ he'
  · obtain ⟨q, hq, -, -, ⟨-, i⟩ | ⟨-, i⟩⟩ := key r' hr' <;> rw [i]
    · exact hf _
    · exact hs.nonneg q hq
  · obtain ⟨q, hq, e, -, ⟨-, i⟩ | ⟨-, i⟩⟩ := key r' hr' <;> rw [i, e]
    · exact hlow g hg _
    · exact hs.below q hq g hg
  · obtain ⟨q, hq, e, k, ⟨-, i⟩ | ⟨-, i⟩⟩ := key r' hr' <;> rw [i, e, k]
    · refine (hs.within q hq).imp_right fun hw j hj => hw j ?_
      rcases List.mem_cons.mp hj with rfl | hj
      · exact .tail _ (List.mem_map_of_mem (· q.client) hmem)
      · exact .tail _ hj
    · exact hs.within q hq

/-- Creating a client adds a record with compensation 0 and keeps the others. -/
theorem createClient_qos {i : ClientInfo} {c₀ : C} {r' : ClientRec C R}
    (h : r' ∈ (s.createClient i c₀).clientMap) :
    (∃ r ∈ s.clientMap, r'.qos = r.qos) ∨ r'.qos = (c₀, i, 0) := by
  unfold createClient at h
  generalize hX : s.forHeaps (HeapSel.ofClass i.clientType) (fun s h => s.heapPush h c₀) = X at h
  have hm : X.clientMap = s.clientMap := hX ▸ foldl_keeps s (·.clientMap) _ fun _ _ => rfl
  have key : ∀ r'' ∈ ((X.insertClient (ClientRec.init c₀ i X.tick)).setCompensated c₀
      ⟨i.reservation, i.weight, i.limit, i.clientType⟩).clientMap,
      (∃ r ∈ s.clientMap, r''.qos = r.qos) ∨ r''.qos = (c₀, i, 0) := by
    intro r'' hr''
    simp only [setCompensated, insertClient, List.mem_orderedInsert, hm] at hr''
    rcases hr'' with rfl | hr''
    · exact .inr rfl
    · exact .inl ⟨r'', hr'', rfl⟩
  dsimp only at h
  split at h
  · obtain ⟨r'', hr'', e⟩ := (keepsInfo_addTotalWgtAndUpdateClientRes _).2 r' h
    rw [e]
    exact key r'' hr''
  · exact key r' h

/-- Creating a client with `f`'s info adds a record with compensation 0. -/
theorem CompensationFloor.createClient (hs : CompensationFloor fs s)
    (hf : ∀ c, (f c).clientType = .R → 0 ≤ (f c).reservation)
    (hlow : ∀ g ∈ fs, ReservationNotLowered f g) {c : C} (hc : s.findClient c = none) :
    CompensationFloor fs (s.createClient (f c) c) := by
  have hne : ∀ r ∈ s.clientMap, r.client ≠ c := by simpa [findClient] using hc
  have key (r' : ClientRec C R) (hr' : r' ∈ (s.createClient (f c) c).clientMap) :
      (∃ r ∈ s.clientMap, r'.client = r.client ∧ r'.info = r.info ∧
        r'.rCompensation = r.rCompensation) ∨
      (r'.client = c ∧ r'.info = f c ∧ r'.rCompensation = 0) := by
    rcases createClient_qos hr' with ⟨r, hr, e⟩ | e <;>
      simp only [ClientRec.qos, Prod.mk.injEq] at e
    · exact .inl ⟨r, hr, e⟩
    · exact .inr e
  refine ⟨fun r₁ h₁ r₂ h₂ he => ?_, fun r' hr' => ?_, fun r' hr' => ?_, fun r' hr' => ?_⟩
  · rcases key r₁ h₁ with ⟨q₁, hq₁, e₁, i₁, -⟩ | ⟨e₁, i₁, -⟩ <;>
      rcases key r₂ h₂ with ⟨q₂, hq₂, e₂, i₂, -⟩ | ⟨e₂, i₂, -⟩
    · rw [i₁, i₂]
      exact hs.sameInfo q₁ hq₁ q₂ hq₂ (e₁.symm.trans (he.trans e₂))
    · exact absurd (e₁.symm.trans (he.trans e₂)) (hne q₁ hq₁)
    · exact absurd (e₂.symm.trans (he.symm.trans e₁)) (hne q₂ hq₂)
    · rw [i₁, i₂]
  · rcases key r' hr' with ⟨q, hq, -, i, -⟩ | ⟨-, i, -⟩ <;> rw [i]
    · exact hs.nonneg q hq
    · exact hf c
  · rcases key r' hr' with ⟨q, hq, e, i, -⟩ | ⟨e, i, -⟩ <;> rw [i, e]
    · exact hs.below q hq
    · exact fun g hg => hlow g hg c
  · rcases key r' hr' with ⟨q, hq, e, i, k⟩ | ⟨-, -, k⟩
    · rw [i, e, k]
      exact hs.within q hq
    · exact .inl k

/-- The clamp of the compensation update leaves 0 or at most a tenth of the reservation. -/
theorem clamp_within (x : ℕ) (res : ℚ) :
    (if (x : ℤ) < 0 then 0 else if (x : ℚ) > res * (1 / 10) then ⌊res * (1 / 10)⌋₊ else x) = 0 ∨
      ((if (x : ℤ) < 0 then 0 else if (x : ℚ) > res * (1 / 10) then ⌊res * (1 / 10)⌋₊ else x :
        ℕ) : ℚ) ≤ res * (1 / 10) := by
  split_ifs with h1 h2
  · exact .inl rfl
  · rcases le_or_lt 0 (res * (1 / 10)) with h | h
    · exact .inr (Nat.floor_le h)
    · exact .inl (Nat.floor_eq_zero.mpr (by linarith))
  · exact .inr (not_lt.mp h2)

/-- Setting an R client's compensation to 0 or at most a tenth of its reservation: no callback to
come gives it a lower reservation. -/
theorem CompensationFloor.setRCompensation (hs : CompensationFloor fs s) {c : C}
    {client : ClientRec C R} (hc : s.findClient c = some client)
    (hR : client.info.clientType = .R) {rc : ℕ}
    (hrc : rc = 0 ∨ (rc : ℚ) ≤ client.info.reservation * (1 / 10)) (i : ClientInfo) :
    CompensationFloor fs
      ((s.modifyClient c fun r => { r with rCompensation := rc }).setCompensated c i) := by
  have hcm := findClient_mem s hc
  have hcc := findClient_client s hc
  have key (r' : ClientRec C R) (hr' : r' ∈ ((s.modifyClient c fun r =>
      { r with rCompensation := rc }).setCompensated c i).clientMap) :
      ∃ r ∈ s.clientMap, r'.client = r.client ∧ r'.info = r.info ∧
        (r.client = c ∧ r'.rCompensation = rc ∨ r'.rCompensation = r.rCompensation) := by
    obtain ⟨r, hr, rfl⟩ := List.mem_map.mp hr'
    exact ⟨r, hr, by by_cases h : r.client = c <;> simp [h]⟩
  refine ⟨fun r₁ h₁ r₂ h₂ he => ?_, fun r' hr' => ?_, fun r' hr' => ?_, fun r' hr' => ?_⟩
  · obtain ⟨q₁, hq₁, e₁, i₁, -⟩ := key r₁ h₁
    obtain ⟨q₂, hq₂, e₂, i₂, -⟩ := key r₂ h₂
    rw [i₁, i₂]
    exact hs.sameInfo q₁ hq₁ q₂ hq₂ (e₁.symm.trans (he.trans e₂))
  · obtain ⟨q, hq, -, i, -⟩ := key r' hr'
    rw [i]
    exact hs.nonneg q hq
  · obtain ⟨q, hq, e, i, -⟩ := key r' hr'
    rw [i, e]
    exact hs.below q hq
  · obtain ⟨q, hq, e, i, ⟨hqc, k⟩ | k⟩ := key r' hr' <;> rw [i, e, k]
    · have hinfo : q.info = client.info := hs.sameInfo q hq client hcm (hqc.trans hcc.symm)
      refine hrc.imp_right fun hle j hj => ?_
      rcases List.mem_cons.mp hj with rfl | hj
      · exact fun _ => hinfo ▸ hle
      · obtain ⟨g, hg, rfl⟩ := List.mem_map.mp hj
        intro hgR
        have hres := hs.below q hq g hg (hinfo ▸ hR) hgR
        rw [hinfo] at hres
        exact hle.trans (mul_le_mul_of_nonneg_right hres (by norm_num))
    · exact hs.within q hq

/-- The compensation update of an R client, through its clamp. -/
theorem CompensationFloor.compensate (hs : CompensationFloor fs s) {c : C}
    {client : ClientRec C R} (hc : s.findClient c = some client)
    (hR : client.info.clientType = .R) : CompensationFloor fs (s.compensate c) := by
  unfold PriorityQueueBase.compensate
  rw [hc]
  exact hs.setRCompensation hc hR (clamp_within _ client.info.reservation) _

/-- The bound is kept by every operation whose callback `f` is one of the callbacks to come,
gives nonnegative reservations in class R, and lowers none of theirs. -/
theorem compensationFloor_keptUnder (hf : ∀ c, (f c).clientType = .R → 0 ≤ (f c).reservation)
    (hmem : f ∈ fs) (hlow : ∀ g ∈ fs, ReservationNotLowered f g) :
    KeptUnder (R := R) f (CompensationFloor fs) where
  keeps hs h := hs.keeps h
  install c hs := hs.mapInfo hf hlow hmem (· = c)
    (List.map_congr_left fun r _ => by by_cases h : r.client = c <;> simp [h])
  installAll hs := hs.mapInfo hf hlow hmem (fun _ => True) (by simp [updateClientInfos])
  createClient hc hs := hs.createClient hf hlow hc
  compensate hc hR hs := hs.compensate hc hR

section Runs

attribute [local semireducible] Rat.add Rat.mul Rat.inv Rat.sub

theorem run_compensatedCurrent_two_pulls :
    ∃ (s₀ : PriorityQueueBase ℕ ℕ) (outs : List (Out ℕ ℕ)) (s : PriorityQueueBase ℕ ℕ),
      init 2 600 900 360 false 0 10 1 = .ok s₀ ∧
      s₀.run [.addRequest (fun _ => ⟨1, 1, 0, .R⟩) 100 1 {} 0,
        .addRequest (fun _ => ⟨1, 1, 0, .R⟩) 101 1 {} 0,
        .pullRequest (fun _ => ⟨1, 1, 0, .R⟩) 0, .pullRequest (fun _ => ⟨1, 1, 0, .R⟩) 1] =
        .ok (outs, s) ∧
      s.CompensatedCurrent ∧
      ∀ r ∈ s.clientMap, s.clientInfoWrapper r = .ok ⟨1 + r.rCompensation, 1, 0, .R⟩ :=
  ⟨_, _, _, rfl, rfl, @run_compensatedCurrent ℕ ℕ _ (fun _ => ⟨1, 1, 0, .R⟩) 2 600 900 360 false
    0 10 1 _ _ [.addRequest (fun _ => ⟨1, 1, 0, .R⟩) 100 1 {} 0,
      .addRequest (fun _ => ⟨1, 1, 0, .R⟩) 101 1 {} 0,
      .pullRequest (fun _ => ⟨1, 1, 0, .R⟩) 0, .pullRequest (fun _ => ⟨1, 1, 0, .R⟩) 1] _
    rfl (by simp [Op.callback]) rfl⟩

/-- An R client with reservation 10, in windows of 1/4, is served three requests by reservation in
the window that starts at 1, above its 10 * 1/4 = 5/2. At the roll-over at 5/4 the compensation
step is comp = trunc((5/2 - 3) / (1/4)) = -2, and clamp(0 - 2, 0, 1) would be 0; but the unsigned
r_compensation wraps to 2^32 - 2 and is clamped down to floor(10 * 0.1) = 1, the largest value.
The times and the window are dyadic, so the code's doubles hold them exactly. -/
theorem overserved_compensation_raised :
    ∃ (s₀ s₁ s₂ : PriorityQueueBase ℕ ℕ) (outs outs' : List (Out ℕ ℕ)) (r₁ r₂ : ClientRec ℕ ℕ),
      init 2 600 900 360 false 0 10 (1 / 4) = .ok s₀ ∧
      s₀.run [.addRequest (fun _ => ⟨10, 1, 0, .R⟩) 100 1 {} 0,
        .addRequest (fun _ => ⟨10, 1, 0, .R⟩) 101 1 {} 0,
        .addRequest (fun _ => ⟨10, 1, 0, .R⟩) 102 1 {} 0,
        .pullRequest (fun _ => ⟨10, 1, 0, .R⟩) 1, .pullRequest (fun _ => ⟨10, 1, 0, .R⟩) 1,
        .pullRequest (fun _ => ⟨10, 1, 0, .R⟩) 1] = .ok (outs, s₁) ∧
      s₁.findClient 1 = some r₁ ∧ s₁.winStart = 1 ∧ r₁.r0Counter = 3 ∧ r₁.rCompensation = 0 ∧
      s₁.run [.pullRequest (fun _ => ⟨10, 1, 0, .R⟩) (5 / 4)] = .ok (outs', s₂) ∧
      s₂.findClient 1 = some r₂ ∧ s₂.winStart = 5 / 4 ∧ r₂.rCompensation = 1 :=
  ⟨_, _, _, _, _, _, _, rfl, rfl, rfl, rfl, rfl, rfl, rfl, rfl, rfl, rfl⟩

end Runs

end PriorityQueueBase

end DmclockServer
