import DmclockServer.Repoll
import DmclockServer.Accounting
import DmclockServer.Emptiness

/-!
# Class membership over runs

`ClassMembership` (I3): every client of the map is in exactly the heaps of its class, once in
each, and every heap member is a client. `update_client_info` and `update_client_infos` install a
class from the callback without moving the client between heaps, and break it
(`updateClientInfo_breaks_classMembership`). Every other operation keeps it, together with the
uniqueness of the ids in the map (`Members`):

* the tag and counter bookkeeping, the heap repairs and the limit walks change neither the ids and
  classes of the records nor the members of a heap, and delete nothing (`SameMembers`);
* `do_add_request` pushes a new client into each heap of its class, and replaces the record of an
  existing client by one of the same class;
* the roll-over moves a client whose class changed (`windowRollover_classMembership`);
* `do_clean` deletes an erased client from the heaps of its class before erasing its record.

So the membership holds in every state of a run from the constructor's state without the two
update operations (`run_classMembership`). There `request_count()`, which sums the queues of the
members of one heap of each class, is the number of requests queued in the client map
(`run_requestCount_eq_sum`).
-/

namespace DmclockServer

/-- The operations that install a class from the callback without moving the client between
heaps. -/
def Op.installsClass {C R : Type} : Op C R → Bool
  | .updateClientInfo .. | .updateClientInfos _ => true
  | _ => false

namespace PriorityQueueBase

variable {C R : Type} {s s' s'' : PriorityQueueBase C R}

/-! ## Moves that keep the members -/

section Same

/-- `s'` has the ids and classes of the records of `s`, in their order, each heap of `s'` has the
members of that heap of `s`, and no deletion went wrong in between. -/
structure SameMembers (s s' : PriorityQueueBase C R) : Prop where
  classes : s'.classes = s.classes
  perm : ∀ h, (s'.heaps h).Perm (s.heaps h)
  undefined : s'.undefined = s.undefined

theorem SameMembers.rfl : SameMembers s s := ⟨Eq.refl _, fun _ => List.Perm.refl _, Eq.refl _⟩

theorem SameMembers.trans (h₁ : SameMembers s s') (h₂ : SameMembers s' s'') :
    SameMembers s s'' :=
  ⟨h₂.1.trans h₁.1, fun h => (h₂.2 h).trans (h₁.2 h), h₂.3.trans h₁.3⟩

theorem sameMembers_of_sameCores (h : SameCores s s') (hh : s'.heaps = s.heaps)
    (hu : s'.undefined = s.undefined) : SameMembers s s' :=
  ⟨classes_of_cores h.1, fun _ => hh ▸ List.Perm.refl _, hu⟩

theorem sameMembers_setHeap {h : HeapSel} {l : List C} (hl : l.Perm (s.heaps h)) :
    SameMembers s (s.setHeap h l) := by
  refine ⟨rfl, fun h' => ?_, rfl⟩
  by_cases e : h' = h
  · subst e; simpa [setHeap] using hl
  · simp [setHeap, e]

theorem sameMembers_forHeaps (hs : List HeapSel)
    {op : PriorityQueueBase C R → HeapSel → PriorityQueueBase C R}
    (hop : ∀ t h, SameMembers t (op t h)) : SameMembers s (s.forHeaps hs op) := by
  induction hs generalizing s with
  | nil => exact .rfl
  | cons h hs ih => exact (hop s h).trans ih

theorem sameMembers_addTotalWgtAndUpdateClientRes (w : ℚ) :
    SameMembers s (s.addTotalWgtAndUpdateClientRes w) :=
  sameMembers_of_sameCores ⟨cores_addTotalWgtAndUpdateClientRes s w, rfl⟩ rfl rfl

variable [LinearOrder C]

theorem ClassMembership.sameMembers (hcm : s.ClassMembership) (h : SameMembers s s') :
    s'.ClassMembership :=
  hcm.congr h.1 h.2

theorem sameMembers_modifyClient {c : C} {f : ClientRec C R → ClientRec C R}
    (hf : ∀ r, (f r).client = r.client ∧ (f r).info.clientType = r.info.clientType) :
    SameMembers s (s.modifyClient c f) :=
  ⟨classes_modifyClient_of hf, fun _ => List.Perm.refl _, rfl⟩

theorem sameMembers_heapAdjust (h : HeapSel) (c : C) : SameMembers s (s.heapAdjust h c) :=
  sameMembers_setHeap (IndIntruHeap.adjust_perm _ _ _ _)

theorem sameMembers_heapPromote (h : HeapSel) (c : C) : SameMembers s (s.heapPromote h c) :=
  sameMembers_setHeap (IndIntruHeap.promote_perm _ _ _ _)

theorem sameMembers_heapDemote (h : HeapSel) (c : C) : SameMembers s (s.heapDemote h c) :=
  sameMembers_setHeap (IndIntruHeap.demote_perm _ _ _ _)

theorem sameMembers_adjustClass (cls : ClientType) (c : C) :
    SameMembers s (s.adjustClass cls c) :=
  sameMembers_forHeaps _ fun _ h => sameMembers_heapAdjust h c

theorem promoteWalkLoop_sameMembers {lh ph : HeapSel} (hne : lh ≠ ph) (now : ℚ) (fuel : ℕ)
    (s : PriorityQueueBase C R) : SameMembers s (promoteWalkLoop lh ph now fuel s) :=
  promoteWalkLoop_induction (P := SameMembers s) (fun _ _ _ _ _ _ _ ht =>
    ht.trans ⟨classes_modifyClient_of fun _ => ⟨rfl, rfl⟩, walkRound_perm hne, rfl⟩) fuel s .rfl

theorem promoteWalk_sameMembers {lh ph : HeapSel} (hne : lh ≠ ph) (now : ℚ) :
    SameMembers s (s.promoteWalk lh ph now) :=
  promoteWalkLoop_sameMembers hne now _ s

theorem limitBreak_sameMembers {n : NextReq} (h : s.limitBreak = some (n, s')) :
    SameMembers s s' := by
  unfold limitBreak at h
  repeat' split at h
  all_goals cases h; try exact sameMembers_modifyClient fun _ => ⟨rfl, rfl⟩

/-- The ladder walks the limit heaps and bumps a counter. -/
theorem dispatchLadder_sameMembers {now : ℚ} {n : NextReq}
    (h : s.dispatchLadder now = .ok (n, s')) : SameMembers s s' := by
  have bump := fun {t : PriorityQueueBase C R} (ht : SameMembers s t) (c : C)
    (f : ClientRec C R → ClientRec C R)
    (hf : ∀ r, (f r).client = r.client ∧ (f r).info.clientType = r.info.clientType) =>
    ht.trans (sameMembers_modifyClient (c := c) hf)
  have w1 := promoteWalk_sameMembers (s := s) HeapSel.walkPair_limit.ne now
  have w2 := w1.trans (promoteWalk_sameMembers HeapSel.walkPair_rLimit.ne now)
  have w3 := w2.trans (promoteWalk_sameMembers HeapSel.walkPair_bestLimit.ne now)
  unfold dispatchLadder at h
  split at h
  · cases h; exact bump .rfl _ _ fun _ => ⟨rfl, rfl⟩
  dsimp only at h
  split at h
  · cases h; exact bump w1 _ _ fun _ => ⟨rfl, rfl⟩
  split at h
  · cases h; exact bump w2 _ _ fun _ => ⟨rfl, rfl⟩
  split at h
  · cases h; exact bump w3 _ _ fun _ => ⟨rfl, rfl⟩
  split at h
  · rename_i hb; cases h; exact w3.trans (limitBreak_sameMembers hb)
  · obtain ⟨_, -, h⟩ := except_map_eq_ok.mp h
    cases h; exact w3

theorem sameMembers_modifyClient_of_core {c : C} {f : ClientRec C R → ClientRec C R}
    (hf : ∀ r, (f r).core = r.core) : SameMembers s (s.modifyClient c f) :=
  sameMembers_of_sameCores (sameCores_modifyClient hf) rfl rfl

theorem reduceReservationTags_sameMembers {r : ClientRec C R}
    (h : s.reduceReservationTags r = .ok s') : SameMembers s s' := by
  unfold reduceReservationTags at h
  generalize (if r.info.clientType = .R then s.compensated r.client else some r.info) = i at h
  cases i with
  | none => cases h
  | some info =>
    cases h
    exact (sameMembers_modifyClient_of_core fun r => ClientRec.core_reduceReservation r _).trans
      (sameMembers_heapPromote _ _)

end Same

variable [LinearOrder C]

/-! ## The invariant -/

section Invariant

/-- The client ids of the map, in its order. -/
def ids (s : PriorityQueueBase C R) : List C := s.clientMap.map (·.client)

omit [LinearOrder C] in
theorem ids_eq_map_classes : s.ids = s.classes.map Prod.fst := by
  simp [ids, classes, Function.comp_def]

/-- Class membership, with no client id twice in the map. -/
structure Members (s : PriorityQueueBase C R) : Prop where
  classMembership : s.ClassMembership
  nodup : s.ids.Nodup

/-- How often membership puts `a` in heap `h`: once in each heap of the class of its record, and
nowhere for an id missing from the map. -/
def classCount (s : PriorityQueueBase C R) (h : HeapSel) (a : C) : ℕ :=
  ((s.findClient a).map fun r => if h ∈ HeapSel.ofClass r.info.clientType then 1 else 0).getD 0

theorem findClient_of_mem_of_nodup (hnd : s.ids.Nodup) {r : ClientRec C R}
    (hr : r ∈ s.clientMap) : s.findClient r.client = some r := by
  have hs : (s.findClient r.client).isSome := List.find?_isSome.mpr ⟨r, hr, by simp⟩
  obtain ⟨r', hr'⟩ := Option.isSome_iff_exists.mp hs
  rw [hr', List.inj_on_of_nodup_map hnd (findClient_mem s hr') hr (findClient_client s hr')]

theorem findClient_eq_none_iff {c : C} : s.findClient c = none ↔ c ∉ s.ids := by
  simp [findClient, ids]

/-- Membership is the count of every id in every heap, with unique ids. -/
theorem members_iff : Members s ↔ s.ids.Nodup ∧ ∀ h a, (s.heaps h).count a = s.classCount h a := by
  constructor
  · rintro ⟨hcm, hnd⟩
    refine ⟨hnd, fun h a => ?_⟩
    cases hf : s.findClient a with
    | none =>
      rw [show s.classCount h a = 0 by simp [classCount, hf]]
      refine List.count_eq_zero_of_not_mem fun ha => ?_
      obtain ⟨r, hr⟩ := hcm.findClient_of_mem ha
      rw [hf] at hr
      cases hr
    | some r => simp [classCount, hf, hcm.count_eq hf h]
  · rintro ⟨hnd, hcount⟩
    refine ⟨⟨fun r hr h _ => ?_, fun h _ a ha => ?_⟩, hnd⟩
    · simp [hcount, classCount, findClient_of_mem_of_nodup hnd hr]
    · have hpos := List.count_pos_iff.mpr ha
      rw [hcount] at hpos
      cases hf : s.findClient a with
      | none => simp [classCount, hf] at hpos
      | some r => exact findClient_client s hf ▸ List.mem_map_of_mem _ (findClient_mem s hf)

theorem Members.sameMembers (hm : Members s) (h : SameMembers s s') : Members s' :=
  ⟨hm.1.sameMembers h, by rw [ids_eq_map_classes, h.1, ← ids_eq_map_classes]; exact hm.2⟩

/-- Replacing the record of `c` by one with its id and class keeps the membership. -/
theorem Members.modifyClient_const (hm : Members s) {c : C} {r₀ r : ClientRec C R}
    (hr₀ : s.findClient c = some r₀) (hc : r.client = c)
    (hk : r.info.clientType = r₀.info.clientType) : Members (s.modifyClient c fun _ => r) := by
  have hcls : (s.modifyClient c fun _ => r).classes =
      s.classes.map fun p => (p.1, if p.1 = c then r₀.info.clientType else p.2) := by
    simp only [classes, modifyClient, List.map_map]
    exact List.map_congr_left fun r' _ => by by_cases h : r'.client = c <;> simp [h, hc, hk]
  refine ⟨hm.1.reclass (findClient_client s hr₀ ▸ List.mem_map_of_mem _ (findClient_mem s hr₀))
    hcls (fun h => hm.1.count_eq hr₀ h) (fun _ _ _ => rfl), ?_⟩
  rw [ids_eq_map_classes, hcls, List.map_map]
  simpa [ids_eq_map_classes, Function.comp_def] using hm.2

end Invariant

/-! ## Creating and erasing a client -/

section Clients

theorem nodup_insertClient (hnd : s.ids.Nodup) {r : ClientRec C R}
    (hr : s.findClient r.client = none) : (s.insertClient r).ids.Nodup := by
  refine (((List.perm_orderedInsert (fun a b : ClientRec C R => a.client ≤ b.client) r
    s.clientMap).map (·.client)).nodup_iff).mpr ?_
  exact List.nodup_cons.mpr ⟨findClient_eq_none_iff.mp hr, hnd⟩

theorem Members.createClient (hm : Members s) {c : C} (hc : s.findClient c = none)
    (info : ClientInfo) : Members (s.createClient info c) := by
  obtain ⟨hnd, hcount⟩ := members_iff.mp hm
  generalize hX : s.forHeaps (HeapSel.ofClass info.clientType) (fun s h => s.heapPush h c) = X
  have hXm : X.clientMap = s.clientMap := hX ▸ foldl_keeps s (·.clientMap) _ fun _ _ => rfl
  -- the pushes put `c` once into each heap of its class
  have hXh (h : HeapSel) : (X.heaps h).Perm
      (if h ∈ HeapSel.ofClass info.clientType then c :: s.heaps h else s.heaps h) :=
    hX ▸ forHeaps_perm (HeapSel.ofClass_nodup _) (fun s h => s.heapPush h c) (c :: ·)
      (fun s h => by simpa [heapPush] using IndIntruHeap.push_perm _ _ _ _)
      (fun s h h' hne => by simp [heapPush, hne]) s h
  have hXc : X.findClient c = none := by rwa [findClient, hXm]
  generalize hY : (X.insertClient (ClientRec.init c info X.tick)).setCompensated c
      ⟨info.reservation, info.weight, info.limit, info.clientType⟩ = Y
  have hYh (h : HeapSel) : Y.heaps h = X.heaps h := by rw [← hY]; rfl
  have hYf (a : C) : Y.findClient a =
      if a = c then some (ClientRec.init c info X.tick) else s.findClient a := by
    rw [← hY, show ∀ t : PriorityQueueBase C R, (t.setCompensated c
      ⟨info.reservation, info.weight, info.limit, info.clientType⟩).findClient a = t.findClient a
      from fun _ => rfl]
    split
    · subst a; exact findClient_insertClient_self (s := X) _ rfl hXc
    · rw [findClient_insertClient_ne (s := X) _ (Ne.symm ‹_›), findClient, hXm, ← findClient]
  have hMY : Members Y := by
    refine members_iff.mpr ⟨?_, fun h a => ?_⟩
    · rw [← hY]
      exact nodup_insertClient (by rwa [ids, hXm]) hXc
    · rw [hYh, (hXh h).count_eq, classCount, hYf]
      by_cases hac : a = c
      · subst hac
        have h0 : (s.heaps h).count a = 0 := by simp [hcount, classCount, hc]
        split <;> simp [h0, ClientRec.init, *]
      · rw [if_neg hac, ← classCount, ← hcount]
        split <;> simp [List.count_cons_of_ne hac]
  unfold PriorityQueueBase.createClient
  rw [hX]
  dsimp only
  rw [hY]
  split
  · exact hMY.sameMembers (sameMembers_addTotalWgtAndUpdateClientRes _)
  · exact hMY

/-- `delete_from_heaps` then `client_map.erase`: the client leaves every heap and the map. -/
theorem Members.eraseClient (hm : Members s) {c : C} {r : ClientRec C R}
    (hr : s.findClient c = some r) : Members ((s.deleteFromHeaps r).eraseClient c) := by
  obtain ⟨hnd, hcount⟩ := members_iff.mp hm
  have hcl := findClient_client s hr
  have hdel (h : HeapSel) : ((s.deleteFromHeaps r).heaps h).Perm
      (if h ∈ HeapSel.ofClass r.info.clientType then (s.heaps h).erase c else s.heaps h) :=
    forHeaps_perm (HeapSel.ofClass_nodup _) (fun s h => s.heapDelete h r.client) (·.erase c)
      (fun s h => by simpa [heapDelete, hcl] using IndIntruHeap.deleteFromHeap_perm _ _ _ _)
      (fun s h h' hne => by simp [heapDelete, hne]) s h
  refine members_iff.mpr ⟨?_, fun h a => ?_⟩
  · have hsub : ((s.deleteFromHeaps r).eraseClient c).ids.Sublist s.ids := by
      simp only [ids, PriorityQueueBase.eraseClient, clientMap_deleteFromHeaps]
      exact (List.filter_sublist _).map _
    exact hnd.sublist hsub
  · have hf : ((s.deleteFromHeaps r).eraseClient c).findClient a =
        if a = c then none else s.findClient a := by
      rw [findClient_eraseClient]; simp [findClient]
    rw [show ((s.deleteFromHeaps r).eraseClient c).heaps h = (s.deleteFromHeaps r).heaps h from rfl,
      (hdel h).count_eq, classCount, hf]
    by_cases hac : a = c
    · subst hac
      have h1 := hcount h a
      simp only [classCount, hr, Option.map_some', Option.getD_some] at h1
      split <;> simp_all
    · split <;> simp [List.count_erase_of_ne hac, hac, hcount, classCount]

theorem Members.cleanClient (hm : Members s) (e i : ℕ) (c : C) :
    Members (s.cleanClient e i c) := by
  unfold PriorityQueueBase.cleanClient
  split
  · exact hm
  · rename_i r hr
    split
    · dsimp only
      have hz := hm.eraseClient hr
      split
      · exact hz
      · split
        · exact hz.sameMembers (sameMembers_addTotalWgtAndUpdateClientRes _)
        · exact hz
    · split
      · exact hm.sameMembers (sameMembers_modifyClient fun _ => ⟨rfl, rfl⟩)
      · exact hm

theorem Members.doClean (hm : Members s) {now : ℚ} (h : s.doClean now = .ok s') : Members s' := by
  unfold PriorityQueueBase.doClean at h
  obtain ⟨⟨pts, ep⟩, -, h⟩ := except_bind_eq_ok.mp h
  cases h
  have h₀ : Members { s with cleanMarkPoints := pts } :=
    hm.sameMembers ⟨rfl, fun _ => List.Perm.refl _, rfl⟩
  split
  · exact List.foldlRecOn (motive := Members) _ _ _ h₀ fun _ ht c _ => ht.cleanClient _ _ c
  · exact h₀

end Clients

/-! ## The operations -/

section Operations

omit [LinearOrder C] in
theorem ClientRec.client_info_of_core {r r' : ClientRec C R} (h : r'.core = r.core) :
    r'.client = r.client ∧ r'.info.clientType = r.info.clientType := by
  simp only [ClientRec.core, Prod.mk.injEq] at h
  exact ⟨h.1, by rw [h.2.2.1]⟩

theorem Members.admitClient (hm : Members s) (infoF : C → ClientInfo) (c : C) (time : ℚ) :
    Members (s.admitClient infoF c time) := by
  have hrealign (t : PriorityQueueBase C R) : SameMembers t (t.realignIdle c time) := by
    unfold realignIdle
    split
    · split
      · exact sameMembers_modifyClient fun _ => ⟨rfl, rfl⟩
      · exact .rfl
    · exact .rfl
  have ht : Members { s with tick := s.tick + 1 } := hm.sameMembers ⟨rfl, fun _ => List.Perm.refl _, rfl⟩
  unfold PriorityQueueBase.admitClient
  dsimp only
  refine Members.sameMembers ?_ (hrealign _)
  split
  · exact ht
  · exact ht.createClient (Option.not_isSome_iff_eq_none.mp ‹_›) _

theorem Members.queueRequest (hm : Members s) {client r₀ : ClientRec C R}
    (hr₀ : s.findClient client.client = some r₀) (hk : client.info.clientType = r₀.info.clientType)
    (tag : RequestTag) (request : R) (p : ReqParams) :
    Members (s.queueRequest client tag request p) := by
  have h₁ := hm.modifyClient_const (r := client.addRequest tag client.client request) hr₀ rfl hk
  unfold PriorityQueueBase.queueRequest
  dsimp only
  refine (Members.sameMembers ?_ (sameMembers_modifyClient
    (f := fun r => { r with curRho := p.rho, curDelta := p.delta }) fun _ => ⟨rfl, rfl⟩)).sameMembers
    (sameMembers_adjustClass _ _)
  split
  · exact h₁.sameMembers (sameMembers_adjustClass _ _)
  · exact h₁

theorem Members.doAddRequest (hm : Members s) {infoF : C → ClientInfo} {r : R} {c : C}
    {p : ReqParams} {time : ℚ} (h : s.doAddRequest infoF r c p time = .ok s') : Members s' := by
  unfold PriorityQueueBase.doAddRequest at h
  dsimp only at h
  split at h
  · cases h
  · rename_i client hclient
    obtain ⟨⟨client', tag⟩, htag, rfl⟩ := except_map_eq_ok.mp h
    obtain ⟨hcl, hk⟩ := ClientRec.client_info_of_core (newRequestTag_core htag)
    exact (hm.admitClient infoF c time).queueRequest
      (by rw [hcl, findClient_client _ hclient]; exact hclient) hk tag r p

theorem repairHeaps_sameMembers {top : ClientRec C R} {cls : ClientType} {isDelta : Bool}
    (h : s.repairHeaps top cls isDelta = .ok s') : SameMembers s s' := by
  unfold repairHeaps at h
  split at h
  · obtain ⟨t, ht, rfl⟩ := except_map_eq_ok.mp h
    have hst : SameMembers s t := by
      split at ht
      · exact reduceReservationTags_sameMembers ht
      · cases ht; exact .rfl
    exact ((hst.trans (sameMembers_heapDemote _ _)).trans (sameMembers_heapDemote _ _)).trans
      (sameMembers_heapAdjust _ _)
  all_goals cases h; exact (sameMembers_heapDemote _ _).trans (sameMembers_heapAdjust _ _)

theorem Members.popProcessRequest (hm : Members s) {hs : HeapSel} {isDelta : Bool}
    {res : C × R} (h : s.popProcessRequest hs isDelta = .ok (res, s')) : Members s' := by
  unfold PriorityQueueBase.popProcessRequest at h
  split at h
  · cases h
  rename_i top htop
  split at h
  · cases h
  obtain ⟨top', htag, h⟩ := except_bind_eq_ok.mp h
  obtain ⟨i, -, h⟩ := except_bind_eq_ok.mp h
  obtain ⟨t, hrep, h⟩ := except_bind_eq_ok.mp h
  cases h
  obtain ⟨hcl, hk⟩ := ClientRec.client_info_of_core (tagNewHead_core htag)
  exact (hm.modifyClient_const (topRec_findClient s htop) hcl hk).sameMembers
    (repairHeaps_sameMembers hrep)

omit [LinearOrder C] in
theorem ids_eq_queueView : s.ids = s.queueView.map Prod.fst := by
  simp [ids, queueView, cores, ClientRec.core, Function.comp_def]

theorem Members.doNextRequest (hm : Members s) {infoF : C → ClientInfo} {now : ℚ} {n : NextReq}
    (h : s.doNextRequest infoF now = .ok (n, s')) : Members s' := by
  unfold PriorityQueueBase.doNextRequest at h
  split at h
  · cases h; exact hm
  · refine Members.sameMembers ?_ (dispatchLadder_sameMembers h)
    split
    · exact ⟨windowRollover_classMembership hm.1 infoF now,
        by rw [ids_eq_queueView, windowRollover_queueView, ← ids_eq_queueView]; exact hm.2⟩
    · exact hm

theorem Members.pullRequest (hm : Members s) {infoF : C → ClientInfo} {now : ℚ}
    {p : PullReq C R} (h : s.pullRequest infoF now = .ok (p, s')) : Members s' := by
  unfold PriorityQueueBase.pullRequest at h
  obtain ⟨⟨next, s₁⟩, hnext, h⟩ := except_bind_eq_ok.mp h
  have hs₁ := hm.doNextRequest hnext
  dsimp only at h
  split at h
  · cases h; exact hs₁
  · cases h; exact hs₁
  · split at h
    all_goals first
      | cases h
      | obtain ⟨⟨⟨c₀, r⟩, s₂⟩, hpop, h⟩ := except_bind_eq_ok.mp h
        cases h
        exact hs₁.popProcessRequest hpop

theorem Members.removeByClient (hm : Members s) (c : C) (rev : Bool) :
    Members (s.removeByClient c rev).1 := by
  unfold PriorityQueueBase.removeByClient
  split
  · exact hm
  · rename_i client _
    dsimp only
    have h₁ := hm.sameMembers ((sameMembers_modifyClient (c := c)
      (f := fun r => { r with requests := [] }) fun _ => ⟨rfl, rfl⟩).trans
        (sameMembers_adjustClass client.info.clientType c))
    split
    · exact h₁.sameMembers (sameMembers_addTotalWgtAndUpdateClientRes _)
    · exact h₁

theorem Members.filterClient (hm : Members s) (f : List R → R → Bool) (vb : Bool)
    (acc : Bool × (List R × List (C × R))) (c : C) : Members (s.filterClient f vb acc c).1 := by
  unfold PriorityQueueBase.filterClient
  split
  · exact hm
  · rename_i client hclient
    have hcl : (client.removeByReqFilter (accumFilter f c) acc.2 vb).1.client = c :=
      (findClient_client s hclient :)
    have hk : (client.removeByReqFilter (accumFilter f c) acc.2 vb).1.info.clientType =
      client.info.clientType := rfl
    dsimp only
    generalize client.removeByReqFilter (accumFilter f c) acc.2 vb = res at hcl hk ⊢
    have h₁ := hm.modifyClient_const (r := res.1) hclient hcl hk
    split
    · exact h₁.sameMembers (sameMembers_adjustClass _ _)
    · exact h₁

theorem Members.removeByReqFilter (hm : Members s) (f : List R → R → Bool) (vb : Bool) :
    Members (s.removeByReqFilter f vb).1 :=
  List.foldlRecOn (motive := fun acc => Members acc.1) _ _ _ hm
    fun (acc : PriorityQueueBase C R × Bool × (List R × List (C × R))) h c _ =>
      h.filterClient f vb acc.2 c

/-- The step lemma: an operation other than the two updates keeps the membership. -/
theorem Members.step (hm : Members s) {op : Op C R} {out : Out C R}
    (hop : op.installsClass = false) (h : s.step op = .ok (out, s')) : Members s' := by
  cases op with
  | addRequest => exact hm.doAddRequest (step_eq_ok s h).2
  | pullRequest =>
    obtain ⟨p, -, hp⟩ := step_eq_ok s h
    exact hm.pullRequest hp
  | scheduleRequest =>
    obtain ⟨p, -, hp⟩ := step_eq_ok s h
    rcases scheduleRequest_eq_ok s hp with ⟨-, -, rfl⟩ | ⟨-, hp⟩
    · exact hm
    · exact hm.pullRequest hp
  | removeByClient c rev => cases h; exact hm.removeByClient c rev
  | removeByReqFilter f vb => cases h; exact hm.removeByReqFilter f vb
  | updateClientInfo | updateClientInfos => cases hop
  | doClean => exact hm.doClean (step_eq_ok s h).2

end Operations

/-! ## Runs -/

section Runs

variable {b : ℕ} {idleAge eraseAge checkTime : ℚ} {alb : Bool} {at' cap win : ℚ}
  {s₀ : PriorityQueueBase C R} {ops : List (Op C R)} {outs : List (Out C R)}

/-- The run lemma: from the constructor's state, a run without the two updates ends with the
membership. -/
theorem Members.run (h₀ : init b idleAge eraseAge checkTime alb at' cap win = .ok s₀)
    (hops : ∀ op ∈ ops, op.installsClass = false) (h : s₀.run ops = .ok (outs, s)) : Members s :=
  run_preserves (fun op hop _ _ _ ht hstep => ht.step (hops op hop) hstep)
    ⟨(init_invariants h₀).1, by simp [ids, (init_eq_ok h₀).1]⟩ h

/-- `request_count()` sums the queues of the members of one heap of each class: with the
membership, every client of the map once. -/
theorem Members.requestCount_eq_sum (hm : Members s) :
    s.requestCount = (s.clientMap.map (·.requestCount)).sum := by
  obtain ⟨hnd, hcount⟩ := members_iff.mp hm
  have hperm : (s.heaps .resv ++ s.heaps .burst ++ s.heaps .best).Perm s.ids := by
    rw [List.perm_iff_count]
    intro a
    simp only [List.count_append, hcount, classCount]
    cases hf : s.findClient a with
    | none => simp [List.count_eq_zero_of_not_mem (findClient_eq_none_iff.mp hf)]
    | some r =>
      have ha : a ∈ s.ids := findClient_client s hf ▸ List.mem_map_of_mem _ (findClient_mem s hf)
      rw [List.count_eq_one_of_mem hnd ha]
      simp only [Option.map_some', Option.getD_some]
      generalize r.info.clientType = k
      cases k <;> decide
  have hsum := (hperm.map fun c => ((s.findClient c).map (·.requestCount)).getD 0).sum_eq
  simp only [List.map_append, List.sum_append] at hsum
  unfold requestCount heapRequestCount
  rw [hsum, ids, List.map_map]
  congr 1
  exact List.map_congr_left fun r hr => by simp [findClient_of_mem_of_nodup hnd hr]

attribute [local semireducible] Rat.add Rat.mul Rat.inv Rat.sub

/-- **Every client is in the heaps of its class.** In every run from the constructor's state that
calls neither `update_client_info` nor `update_client_infos`, whatever the callbacks, the
roll-overs' migrations and the cleaning, every client of the map is in exactly the heaps of its
class, once in each, every heap member is a client, and no client id is in the map twice. -/
theorem run_classMembership (h₀ : init b idleAge eraseAge checkTime alb at' cap win = .ok s₀)
    (hops : ∀ op ∈ ops, op.installsClass = false) (h : s₀.run ops = .ok (outs, s)) :
    s.ClassMembership ∧ (s.clientMap.map (·.client)).Nodup :=
  ⟨(Members.run h₀ hops h).1, (Members.run h₀ hops h).2⟩

/-- Client 1 of class B and client 2 of class R queue three requests; the callback of the polls
makes client 1 an R client, and the roll-over at 1 moves it into the R heaps. -/
theorem run_classMembership_after_migration :
    ∃ (s₀ : PriorityQueueBase ℕ ℕ) (outs : List (Out ℕ ℕ)) (s : PriorityQueueBase ℕ ℕ),
      init 2 600 900 360 false 0 10 1 = .ok s₀ ∧
      s₀.run
        [.addRequest (fun c => if c = 1 then ⟨0, 1, 0, .B⟩ else ⟨1, 0, 0, .R⟩) 100 1 {} 0,
        .addRequest (fun c => if c = 1 then ⟨0, 1, 0, .B⟩ else ⟨1, 0, 0, .R⟩) 200 2 {} 0,
        .addRequest (fun c => if c = 1 then ⟨0, 1, 0, .B⟩ else ⟨1, 0, 0, .R⟩) 201 2 {} 0,
        .pullRequest (fun _ => ⟨1, 0, 0, .R⟩) 1, .pullRequest (fun _ => ⟨1, 0, 0, .R⟩) 1] =
        .ok (outs, s) ∧
      (s.findClient 1).map (·.info.clientType) = some .R ∧
      s.ClassMembership ∧ (s.clientMap.map (·.client)).Nodup := by
  refine ⟨_, ?_, ?_, rfl, ?h, ?_, @run_classMembership ℕ ℕ _ _ 2 600 900 360 false 0 10 1 _ _ _ rfl
    (by simp [Op.installsClass]) ?h⟩
  case h => exact rfl
  rfl

/-- **`request_count()` counts the client map.** In every run from the constructor's state without
the two updates, `request_count()`, which adds up the queues of the members of `resv_heap`,
`burst_heap` and `best_heap`, is the number of requests queued in the client map. -/
theorem run_requestCount_eq_sum (h₀ : init b idleAge eraseAge checkTime alb at' cap win = .ok s₀)
    (hops : ∀ op ∈ ops, op.installsClass = false) (h : s₀.run ops = .ok (outs, s)) :
    s.requestCount = (s.clientMap.map (·.requestCount)).sum :=
  (Members.run h₀ hops h).requestCount_eq_sum

/-- Two clients queue three requests and one is served: `request_count()` is the two requests
left. -/
theorem run_requestCount_two_left :
    ∃ (s₀ : PriorityQueueBase ℕ ℕ) (outs : List (Out ℕ ℕ)) (s : PriorityQueueBase ℕ ℕ),
      init 2 600 900 360 false 0 10 1 = .ok s₀ ∧
      s₀.run
        [.addRequest (fun c => if c = 1 then ⟨0, 1, 0, .B⟩ else ⟨1, 0, 0, .R⟩) 100 1 {} 0,
        .addRequest (fun c => if c = 1 then ⟨0, 1, 0, .B⟩ else ⟨1, 0, 0, .R⟩) 200 2 {} 0,
        .addRequest (fun c => if c = 1 then ⟨0, 1, 0, .B⟩ else ⟨1, 0, 0, .R⟩) 201 2 {} 0,
        .pullRequest (fun c => if c = 1 then ⟨0, 1, 0, .B⟩ else ⟨1, 0, 0, .R⟩) 1] =
        .ok (outs, s) ∧
      s.requestCount = (s.clientMap.map (·.requestCount)).sum ∧ s.requestCount = 2 := by
  refine ⟨_, ?_, ?_, rfl, ?h, @run_requestCount_eq_sum ℕ ℕ _ _ 2 600 900 360 false 0 10 1 _ _ _ rfl
    (by simp [Op.installsClass]) ?h, ?_⟩
  case h => exact rfl
  rfl

end Runs

end PriorityQueueBase

end DmclockServer
