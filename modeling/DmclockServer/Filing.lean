import DmclockServer.Membership

/-!
# Polling again in the defined runs

A `pull_request(now)` answered with `None` or `Future(t)` gives the same answer and the same
state when it is called again (`pullRequest_repeat`), on a state whose heaps file every client
under one class (`Filed`). Every operation keeps such a filing, with any callbacks, unless one of
its deletions asks a heap for a client the heap does not hold (`Sound`). There the source removes
at `rfind()`'s `end()`, which is undefined behaviour; the model deletes nothing and records it in
the ghost flag `undefined`, which no operation reads.

* the bookkeeping, the heap repairs, the walks, `remove_by_*` and `update_client_info(s)` change
  no client id, no heap's members and no flag (`SameFiling`);
* a new client is filed under its class (`Filed.createClient`);
* `do_clean`'s erase, when it finds the client in the heaps of its record's class, unfiles it
  (`Filed.eraseClient`), and so do the roll-over's migrations, which file it anew under its new
  class (`Sound.windowRollover`).

`update_client_info` files no client anew: it only changes the class of the record, from whose
heaps a later migration or erase deletes. So every run from the constructor's state keeps the
filing or has gone through undefined behaviour (`run_sound`), and in every defined run a poll
with nothing to do, repeated, gives the same answer and leaves the state as it is
(`run_pullRequest_repeat`). Without the two updates every run is defined
(`run_undefined_eq_false`).
-/

namespace DmclockServer

namespace PriorityQueueBase

variable {C R : Type} [LinearOrder C] {s s' : PriorityQueueBase C R} {g : C → Option ClientType}

/-! ## Moves that keep the filing -/

section Same

omit [LinearOrder C] in
theorem SameMembers.sameFiling (h : SameMembers s s') : SameFiling s s' :=
  ⟨clients_of_classes h.classes, h.perm, h.undefined⟩

theorem Sound.sameMembers (hs : s.Sound) (h : SameMembers s s') : s'.Sound :=
  hs.sameFiling h.sameFiling

theorem sameFiling_realignIdle (c : C) (time : ℚ) : SameFiling s (s.realignIdle c time) := by
  unfold realignIdle
  split
  · split
    · exact sameFiling_modifyClient fun _ h => h
    · exact .rfl
  · exact .rfl

/-- Queueing a request replaces a record by one with the same id and adjusts heaps. -/
theorem sameFiling_queueRequest {client : ClientRec C R} (tag : RequestTag) (request : R)
    (p : ReqParams) : SameFiling s (s.queueRequest client tag request p) := by
  unfold queueRequest
  dsimp only
  have h₁ : SameFiling s (s.modifyClient client.client fun _ =>
      client.addRequest tag client.client request) :=
    sameFiling_modifyClient fun _ _ => rfl
  refine .trans ?_ (sameMembers_adjustClass _ _).sameFiling
  refine .trans ?_ (sameFiling_modifyClient fun _ h => h)
  split
  · exact h₁.trans (sameMembers_adjustClass _ _).sameFiling
  · exact h₁

theorem sameFiling_popProcessRequest {hs : HeapSel} {isDelta : Bool} {res : C × R}
    (h : s.popProcessRequest hs isDelta = .ok (res, s')) : SameFiling s s' := by
  unfold popProcessRequest at h
  split at h
  · cases h
  rename_i top htop
  split at h
  · cases h
  obtain ⟨top', htag, h⟩ := except_bind_eq_ok.mp h
  obtain ⟨i, -, h⟩ := except_bind_eq_ok.mp h
  obtain ⟨t, hrep, h⟩ := except_bind_eq_ok.mp h
  cases h
  refine .trans ?_ (repairHeaps_sameMembers hrep).sameFiling
  exact sameFiling_modifyClient fun _ _ => (ClientRec.client_info_of_core (tagNewHead_core htag)).1

theorem sameFiling_removeByClient (c : C) (rev : Bool) :
    SameFiling s (s.removeByClient c rev).1 := by
  unfold removeByClient
  split
  · exact .rfl
  · rename_i client _
    dsimp only
    have h₁ : SameFiling s ((s.modifyClient c fun r => { r with requests := [] }).adjustClass
        client.info.clientType c) :=
      (sameFiling_modifyClient (f := fun r => { r with requests := [] }) fun _ h => h).trans
        (sameMembers_adjustClass _ c).sameFiling
    split
    · exact h₁.trans (sameFiling_addTotalWgtAndUpdateClientRes _)
    · exact h₁

theorem sameFiling_filterClient (f : List R → R → Bool) (vb : Bool)
    (acc : Bool × (List R × List (C × R))) (c : C) : SameFiling s (s.filterClient f vb acc c).1 := by
  unfold filterClient
  split
  · exact .rfl
  · rename_i client hclient
    have hcl : (client.removeByReqFilter (accumFilter f c) acc.2 vb).1.client = c :=
      (findClient_client s hclient :)
    dsimp only
    generalize client.removeByReqFilter (accumFilter f c) acc.2 vb = res at hcl ⊢
    have h₁ : SameFiling s (s.modifyClient c fun _ => res.1) := sameFiling_modifyClient fun _ _ => hcl
    split
    · exact h₁.trans (sameMembers_adjustClass _ _).sameFiling
    · exact h₁

theorem sameFiling_removeByReqFilter (f : List R → R → Bool) (vb : Bool) :
    SameFiling s (s.removeByReqFilter f vb).1 :=
  List.foldlRecOn (motive := fun acc => SameFiling s acc.1) _ _ _ .rfl
    fun (acc : PriorityQueueBase C R × Bool × (List R × List (C × R))) h c _ =>
      h.trans (sameFiling_filterClient f vb acc.2 c)

/-- `update_client_info` installs a class in the record and moves nobody. -/
theorem sameFiling_updateClientInfo (infoF : C → ClientInfo) (c : C) :
    SameFiling s (s.updateClientInfo infoF c) := by
  unfold updateClientInfo
  split
  · exact .rfl
  · dsimp only
    have h₁ : SameFiling s (s.modifyClient c fun r => { r with info := infoF c }) :=
      sameFiling_modifyClient fun _ h => h
    split
    · exact h₁.trans (sameFiling_addTotalWgtAndUpdateClientRes _)
    · exact h₁

omit [LinearOrder C] in
theorem sameFiling_updateClientInfos (infoF : C → ClientInfo) :
    SameFiling s (s.updateClientInfos infoF) :=
  ⟨by simp [updateClientInfos, Function.comp_def], fun _ => List.Perm.refl _, rfl⟩

end Same

/-! ## Filing and unfiling a client -/

section Clients

/-- A client with no record is not filed. -/
theorem Filed.eq_none (hf : s.Filed g) {c : C} (hc : s.findClient c = none) : g c = none := by
  cases hg : g c with
  | none => rfl
  | some k => exact absurd (hf.client c (by simp [hg])) (findClient_eq_none_iff.mp hc)

/-- A new client is filed under its class. -/
theorem Filed.createClient (hf : s.Filed g) {c : C} (hc : s.findClient c = none) (i : ClientInfo) :
    (s.createClient i c).Filed (Function.update g c (some i.clientType)) := by
  have hgc := hf.eq_none hc
  generalize hX : s.forHeaps (HeapSel.ofClass i.clientType) (fun s h => s.heapPush h c) = X
  have hXm : X.clientMap = s.clientMap := hX ▸ foldl_keeps s (·.clientMap) _ fun _ _ => rfl
  -- the pushes put `c` once into each heap of its class
  have hXh (h : HeapSel) : (X.heaps h).Perm
      (if h ∈ HeapSel.ofClass i.clientType then c :: s.heaps h else s.heaps h) :=
    hX ▸ forHeaps_perm (HeapSel.ofClass_nodup _) (fun s h => s.heapPush h c) (c :: ·)
      (fun s h => by simpa [heapPush] using IndIntruHeap.push_perm _ _ _ _)
      (fun s h h' hne => by simp [heapPush, hne]) s h
  have hY : ((X.insertClient (ClientRec.init c i X.tick)).setCompensated c
      ⟨i.reservation, i.weight, i.limit, i.clientType⟩).Filed
      (Function.update g c (some i.clientType)) := by
    refine ⟨fun h a => ?_, fun a ha => ?_⟩
    · show (X.heaps h).count a = _
      rw [(hXh h).count_eq]
      by_cases hac : a = c
      · subst hac
        have h0 := hf.count h a
        rw [hgc, HeapSel.filedCount] at h0
        rw [Function.update_same, HeapSel.filedCount]
        split <;> simp [h0]
      · rw [Function.update_noteq hac, ← hf.count h a]
        split <;> simp [List.count_cons_of_ne hac]
    · show a ∈ (X.clientMap.orderedInsert _ (ClientRec.init c i X.tick)).map (·.client)
      rw [((List.perm_orderedInsert _ _ _).map _).mem_iff, hXm]
      by_cases hac : a = c
      · exact hac ▸ List.mem_cons_self _ _
      · exact List.mem_cons_of_mem _ (hf.client a (by rwa [Function.update_noteq hac] at ha))
  unfold PriorityQueueBase.createClient
  rw [hX]
  dsimp only
  split
  · exact hY.sameFiling (sameFiling_addTotalWgtAndUpdateClientRes _)
  · exact hY

theorem undefined_createClient (i : ClientInfo) (c : C) :
    (s.createClient i c).undefined = s.undefined := by
  unfold PriorityQueueBase.createClient
  dsimp only
  split <;> exact undefined_forHeaps _ (fun s h => s.heapPush h c) fun _ _ => rfl

theorem Sound.createClient (hs : s.Sound) {c : C} (hc : s.findClient c = none) (i : ClientInfo) :
    (s.createClient i c).Sound := fun hu =>
  let ⟨_, hf⟩ := hs (undefined_createClient (s := s) i c ▸ hu)
  ⟨_, hf.createClient hc i⟩

/-- `delete_from_heaps` that finds the client in each heap of its record's class, then
`client_map.erase`, unfiles it. -/
theorem Filed.eraseClient (hf : s.Filed g) {c : C} {r : ClientRec C R}
    (hr : s.findClient c = some r)
    (hin : ∀ h ∈ HeapSel.ofClass r.info.clientType, c ∈ s.heaps h) :
    ((s.deleteFromHeaps r).eraseClient c).Filed (Function.update g c none) := by
  have hcl := findClient_client s hr
  -- `c` is filed under a class with the heaps of its record's class
  obtain ⟨h₀, hh₀⟩ := HeapSel.exists_mem_ofClass r.info.clientType
  obtain ⟨k, hk, hkh⟩ := hf.class_of_mem (hin h₀ hh₀)
  have hold := HeapSel.ofClass_eq_of_mem hkh hh₀
  have hdel (h : HeapSel) : ((s.deleteFromHeaps r).heaps h).Perm
      (if h ∈ HeapSel.ofClass r.info.clientType then (s.heaps h).erase c else s.heaps h) :=
    forHeaps_perm (HeapSel.ofClass_nodup _) (fun s h => s.heapDelete h r.client) (·.erase c)
      (fun s h => by simpa [heapDelete, hcl] using IndIntruHeap.deleteFromHeap_perm _ _ _ _)
      (fun s h h' hne => by simp [heapDelete, hne]) s h
  refine ⟨fun h a => ?_, fun a ha => ?_⟩
  · show ((s.deleteFromHeaps r).heaps h).count a = _
    rw [(hdel h).count_eq]
    by_cases hac : a = c
    · subst hac
      have hcount := hf.count h a
      rw [hk, HeapSel.filedCount, hold] at hcount
      rw [Function.update_same, HeapSel.filedCount]
      split_ifs at hcount ⊢ <;> simp_all [List.count_erase_self]
    · rw [Function.update_noteq hac, ← hf.count h a]
      split_ifs <;> simp [List.count_erase_of_ne hac]
  · have hac : a ≠ c := fun e => by subst e; simp at ha
    rw [Function.update_noteq hac] at ha
    obtain ⟨r', hr', rfl⟩ := List.mem_map.mp (hf.client a ha)
    refine List.mem_map_of_mem _ (List.mem_filter.mpr ⟨?_, decide_eq_true hac⟩)
    rwa [clientMap_deleteFromHeaps]

/-- `do_clean`'s turn for one client: an erase that finds the client in the heaps of its record's
class, or marking it idle. -/
theorem Sound.cleanClient (hs : s.Sound) (e i : ℕ) (c : C) : (s.cleanClient e i c).Sound := by
  unfold PriorityQueueBase.cleanClient
  split
  · exact hs
  · rename_i r hr
    split
    · dsimp only
      have hz : ((s.deleteFromHeaps r).eraseClient c).Sound := fun hu => by
        have hu' : (s.deleteFromHeaps r).undefined = false := hu
        rw [undefined_deleteFromHeaps] at hu'
        obtain ⟨g, hg⟩ := hs hu'.1
        exact ⟨_, hg.eraseClient hr (findClient_client s hr ▸ hu'.2)⟩
      split
      · exact hz
      · split
        · exact hz.sameFiling (sameFiling_addTotalWgtAndUpdateClientRes _)
        · exact hz
    · split
      · exact hs.sameFiling (sameFiling_modifyClient fun _ h => h)
      · exact hs

theorem Sound.doClean (hs : s.Sound) {now : ℚ} (h : s.doClean now = .ok s') : s'.Sound := by
  unfold PriorityQueueBase.doClean at h
  obtain ⟨⟨pts, ep⟩, -, h⟩ := except_bind_eq_ok.mp h
  cases h
  have h₀ : ({ s with cleanMarkPoints := pts } : PriorityQueueBase C R).Sound :=
    hs.sameFiling ⟨rfl, fun _ => List.Perm.refl _, rfl⟩
  split
  · exact List.foldlRecOn (motive := Sound) _ _ _ h₀ fun _ ht c _ => ht.cleanClient _ _ c
  · exact h₀

end Clients

attribute [local semireducible] Rat.add Rat.mul Rat.inv Rat.sub

/-! ## The operations and the runs -/

section Operations

theorem Sound.doAddRequest (hs : s.Sound) {infoF : C → ClientInfo} {r : R} {c : C}
    {p : ReqParams} {time : ℚ} (h : s.doAddRequest infoF r c p time = .ok s') : s'.Sound := by
  have hadmit : (s.admitClient infoF c time).Sound := by
    have ht : ({ s with tick := s.tick + 1 } : PriorityQueueBase C R).Sound :=
      hs.sameFiling ⟨rfl, fun _ => List.Perm.refl _, rfl⟩
    unfold PriorityQueueBase.admitClient
    dsimp only
    refine Sound.sameFiling ?_ (sameFiling_realignIdle c time)
    split
    · exact ht
    · exact ht.createClient (Option.not_isSome_iff_eq_none.mp ‹_›) _
  unfold PriorityQueueBase.doAddRequest at h
  dsimp only at h
  split at h
  · cases h
  · obtain ⟨⟨client', tag⟩, -, rfl⟩ := except_map_eq_ok.mp h
    exact hadmit.sameFiling (sameFiling_queueRequest tag r p)

theorem Sound.doNextRequest (hs : s.Sound) {infoF : C → ClientInfo} {now : ℚ} {n : NextReq}
    (h : s.doNextRequest infoF now = .ok (n, s')) : s'.Sound := by
  unfold PriorityQueueBase.doNextRequest at h
  split at h
  · cases h; exact hs
  · refine Sound.sameMembers ?_ (dispatchLadder_sameMembers h)
    split
    · exact hs.windowRollover infoF now
    · exact hs

theorem Sound.pullRequest (hs : s.Sound) {infoF : C → ClientInfo} {now : ℚ} {p : PullReq C R}
    (h : s.pullRequest infoF now = .ok (p, s')) : s'.Sound := by
  unfold PriorityQueueBase.pullRequest at h
  obtain ⟨⟨next, s₁⟩, hnext, h⟩ := except_bind_eq_ok.mp h
  have hs₁ := hs.doNextRequest hnext
  dsimp only at h
  split at h
  · cases h; exact hs₁
  · cases h; exact hs₁
  · split at h
    all_goals first
      | cases h
      | obtain ⟨⟨⟨c₀, r⟩, s₂⟩, hpop, h⟩ := except_bind_eq_ok.mp h
        cases h
        exact hs₁.sameFiling (sameFiling_popProcessRequest hpop)

/-- The step lemma: every operation, with any callback, keeps the filing unless one of its
deletions goes wrong. -/
theorem Sound.step (hs : s.Sound) {op : Op C R} {out : Out C R}
    (h : s.step op = .ok (out, s')) : s'.Sound := by
  cases op with
  | addRequest => exact hs.doAddRequest (step_eq_ok s h).2
  | pullRequest =>
    obtain ⟨p, -, hp⟩ := step_eq_ok s h
    exact hs.pullRequest hp
  | scheduleRequest =>
    obtain ⟨p, -, hp⟩ := step_eq_ok s h
    rcases scheduleRequest_eq_ok s hp with ⟨-, -, rfl⟩ | ⟨-, hp⟩
    · exact hs
    · exact hs.pullRequest hp
  | removeByClient c rev => cases h; exact hs.sameFiling (sameFiling_removeByClient c rev)
  | removeByReqFilter f vb => cases h; exact hs.sameFiling (sameFiling_removeByReqFilter f vb)
  | updateClientInfo infoF c => cases h; exact hs.sameFiling (sameFiling_updateClientInfo infoF c)
  | updateClientInfos infoF => cases h; exact hs.sameFiling (sameFiling_updateClientInfos infoF)
  | doClean => exact hs.doClean (step_eq_ok s h).2

variable {b : ℕ} {idleAge eraseAge checkTime : ℚ} {alb : Bool} {at' cap win : ℚ}
  {s₀ : PriorityQueueBase C R} {ops : List (Op C R)} {outs : List (Out C R)}

/-- The run lemma: from the constructor's state, every run keeps the filing unless one of its
deletions went wrong. -/
theorem run_sound (h₀ : init b idleAge eraseAge checkTime alb at' cap win = .ok s₀)
    (h : s₀.run ops = .ok (outs, s)) : s.Sound :=
  run_preserves (fun _ _ _ _ _ ht hstep => ht.step hstep)
    (fun _ => ⟨_, (init_invariants h₀).1.filed⟩) h

/-- **A poll with nothing to do, repeated.** In every run from the constructor's state, with any
callbacks, a `pull_request(now)` on a state whose window is not empty, answered with `None` or
`Future(t)`, leaves a state on which `pull_request(now)`, with any callback, gives the same answer
and leaves the state as it is, provided no deletion so far, the poll's own included, asked a heap
for a client it does not hold (the source's undefined `remove(rfind())` at `end()`). -/
theorem run_pullRequest_repeat {infoF : C → ClientInfo} {now : ℚ} {p : PullReq C R}
    (h₀ : init b idleAge eraseAge checkTime alb at' cap win = .ok s₀)
    (h : s₀.run ops = .ok (outs, s)) (hwin : 0 < s.winSize)
    (hp : s.pullRequest infoF now = .ok (p, s')) (hdef : s'.undefined = false)
    (hpv : p = .none ∨ ∃ t, p = .future t) (infoF' : C → ClientInfo) :
    s'.pullRequest infoF' now = .ok (p, s') :=
  pullRequest_repeat (run_sound h₀ h) hwin hp hdef hpv infoF'

/-- An R client with reservation and limit 1 queues a request at 0 in windows of 1/4, and
`update_client_info` makes it a B client, which stays in the R heaps. The poll at 1/2 rolls the
window over to 1/2 and answers `Future(1)`; so does the poll after it. -/
theorem run_pullRequest_repeat_after_reclass :
    ∃ (s₀ : PriorityQueueBase ℕ ℕ) (outs : List (Out ℕ ℕ)) (s s' : PriorityQueueBase ℕ ℕ),
      init 2 600 900 360 false 0 10 (1 / 4) = .ok s₀ ∧
      s₀.run [.addRequest (fun _ => ⟨1, 1, 1, .R⟩) 100 1 {} 0,
        .updateClientInfo (fun _ => ⟨1, 1, 1, .B⟩) 1] = .ok (outs, s) ∧
      ¬ s.ClassMembership ∧ 0 < s.winSize ∧
      s.pullRequest (fun _ => ⟨1, 1, 1, .B⟩) (1 / 2) = .ok (.future (.fin 1), s') ∧
      s'.undefined = false ∧
      ((.future (.fin 1) : PullReq ℕ ℕ) = .none ∨
        ∃ t, (.future (.fin 1) : PullReq ℕ ℕ) = .future t) ∧
      s'.pullRequest (fun _ => ⟨1, 1, 1, .B⟩) (1 / 2) = .ok (.future (.fin 1), s') := by
  refine ⟨_, ?outs, ?s, ?s', rfl, ?h, ?cm, ?win, ?hp, ?hd, .inr ⟨_, rfl⟩,
    @run_pullRequest_repeat ℕ ℕ _ _ _ 2 600 900 360 false 0 10 (1 / 4) _ _ _ _ _ _ rfl ?h ?win ?hp
      ?hd (.inr ⟨_, rfl⟩) _⟩
  case h => exact rfl
  case hp => exact rfl
  case hd => exact rfl
  case cm => decide
  case win => decide

/- Without the proviso the repeated poll can dispatch. `update_client_info` moves clients 1 and 2
from class B to A without a move. The roll-over at 4/5 migrates client 2 from A to R and deletes
it from the A heaps, which do not hold it: undefined upstream. Client 2 stays in `burst_heap`; at
1 the first poll finds its head not ready there, the walk of `r_limit_heap` then readies it, and
the poll answers `Future(10)`, while the same poll again dispatches the request by rule 3. -/
example :
    ∃ (s₀ : PriorityQueueBase ℕ ℕ) (outs : List (Out ℕ ℕ)) (s s₁ s₂ : PriorityQueueBase ℕ ℕ),
      init 2 600 900 360 false 0 10 (4 / 5) = .ok s₀ ∧
      s₀.run
        [.addRequest (fun c => if c = 1 then ⟨0, 1, 10, .B⟩ else ⟨0, 2, 1, .B⟩) 200 2 {} 0,
        .addRequest (fun c => if c = 1 then ⟨0, 1, 10, .B⟩ else ⟨0, 2, 1, .B⟩) 100 1 {} 0,
        .updateClientInfo (fun _ => ⟨0, 1, 10, .A⟩) 1, .removeByClient 1 false,
        .updateClientInfo (fun _ => ⟨0, 1, 10, .A⟩) 2,
        .pullRequest (fun c => if c = 1 then ⟨0, 1, 10, .A⟩ else if c = 2 then ⟨10, 2, 1, .R⟩
          else ⟨1 / 10, 1, 1 / 10, .R⟩) (4 / 5),
        .addRequest (fun c => if c = 1 then ⟨0, 1, 10, .A⟩ else if c = 2 then ⟨10, 2, 1, .R⟩
          else ⟨1 / 10, 1, 1 / 10, .R⟩) 300 3 {} (4 / 5)] = .ok (outs, s) ∧
      s.undefined = true ∧ 0 < s.winSize ∧
      s.pullRequest (fun c => if c = 1 then ⟨0, 1, 10, .A⟩ else if c = 2 then ⟨10, 2, 1, .R⟩
        else ⟨1 / 10, 1, 1 / 10, .R⟩) 1 = .ok (.future (.fin 10), s₁) ∧
      s₁.pullRequest (fun c => if c = 1 then ⟨0, 1, 10, .A⟩ else if c = 2 then ⟨10, 2, 1, .R⟩
        else ⟨1 / 10, 1, 1 / 10, .R⟩) 1 = .ok (.returning 2 200 .priority, s₂) :=
  ⟨_, _, _, _, _, rfl, rfl, rfl, by decide, rfl, rfl⟩

end Operations

/-! ## Runs without the two updates

Without `update_client_info(s)` every client stays in the heaps of its record's class
(`Members`), so every deletion finds its client and the flag of the undefined deletion stays
down: there the proviso of the repeated poll always holds. -/

section Defined

theorem ClassMembership.undefined_deleteFromHeaps (hcm : s.ClassMembership) {c : C}
    {r : ClientRec C R} (hr : s.findClient c = some r) (hu : s.undefined = false) :
    (s.deleteFromHeaps r).undefined = false :=
  (PriorityQueueBase.undefined_deleteFromHeaps r).mpr
    ⟨hu, fun h hh => findClient_client s hr ▸ (hcm.mem_heaps_iff hr h).mpr hh⟩

theorem ClassMembership.undefined_rollClient (hcm : s.ClassMembership) (infoF : C → ClientInfo)
    (c : C) (hu : s.undefined = false) : (s.rollClient infoF c).undefined = false := by
  unfold PriorityQueueBase.rollClient
  split
  · exact hu
  · rename_i client hclient
    refine (sameFiling_checkCompensation c).undefined.trans ?_
    unfold PriorityQueueBase.installInfo
    split
    · dsimp only
      have hmove : (if (infoF c).clientType ≠ client.info.clientType then
          s.moveToAnotherHeap c (infoF c) else s).undefined = false := by
        split
        · exact (undefined_moveToAnotherHeap hclient _).trans (hcm.undefined_deleteFromHeaps hclient hu)
        · exact hu
      split <;> exact hmove
    · exact hu

theorem ClassMembership.undefined_windowRollover (hcm : s.ClassMembership)
    (infoF : C → ClientInfo) (now : ℚ) (hu : s.undefined = false) :
    (s.windowRollover infoF now).undefined = false :=
  (show (s.windowRollover infoF now).ClassMembership ∧ _ from
    List.foldlRecOn (motive := fun t : PriorityQueueBase C R => t.ClassMembership ∧
      t.undefined = false) _ _ _ ⟨hcm.of_classes rfl rfl, hu⟩ fun _ ht c _ =>
        ⟨rollClient_classMembership ht.1 infoF c, ht.1.undefined_rollClient infoF c ht.2⟩).2

theorem undefined_doAddRequest {infoF : C → ClientInfo} {r : R} {c : C} {p : ReqParams}
    {time : ℚ} (h : s.doAddRequest infoF r c p time = .ok s') : s'.undefined = s.undefined := by
  have hadmit : (s.admitClient infoF c time).undefined = s.undefined := by
    unfold PriorityQueueBase.admitClient
    dsimp only
    refine (sameFiling_realignIdle c time).undefined.trans ?_
    split
    · rfl
    · exact undefined_createClient _ c
  unfold PriorityQueueBase.doAddRequest at h
  dsimp only at h
  split at h
  · cases h
  · obtain ⟨⟨client', tag⟩, -, rfl⟩ := except_map_eq_ok.mp h
    exact (sameFiling_queueRequest tag r p).undefined.trans hadmit

theorem ClassMembership.undefined_doNextRequest (hcm : s.ClassMembership)
    {infoF : C → ClientInfo} {now : ℚ} {n : NextReq} (h : s.doNextRequest infoF now = .ok (n, s'))
    (hu : s.undefined = false) : s'.undefined = false := by
  unfold PriorityQueueBase.doNextRequest at h
  split at h
  · cases h; exact hu
  · refine (dispatchLadder_sameMembers h).undefined.trans ?_
    split
    · exact hcm.undefined_windowRollover infoF now hu
    · exact hu

theorem ClassMembership.undefined_pullRequest (hcm : s.ClassMembership) {infoF : C → ClientInfo}
    {now : ℚ} {p : PullReq C R} (h : s.pullRequest infoF now = .ok (p, s'))
    (hu : s.undefined = false) : s'.undefined = false := by
  unfold PriorityQueueBase.pullRequest at h
  obtain ⟨⟨next, s₁⟩, hnext, h⟩ := except_bind_eq_ok.mp h
  have hs₁ := hcm.undefined_doNextRequest hnext hu
  dsimp only at h
  split at h
  · cases h; exact hs₁
  · cases h; exact hs₁
  · split at h
    all_goals first
      | cases h
      | obtain ⟨⟨⟨c₀, r⟩, s₂⟩, hpop, h⟩ := except_bind_eq_ok.mp h
        cases h
        exact (sameFiling_popProcessRequest hpop).undefined.trans hs₁

theorem ClassMembership.undefined_cleanClient (hcm : s.ClassMembership) (e i : ℕ) (c : C)
    (hu : s.undefined = false) : (s.cleanClient e i c).undefined = false := by
  unfold PriorityQueueBase.cleanClient
  split
  · exact hu
  · rename_i r hr
    have hz : ((s.deleteFromHeaps r).eraseClient c).undefined = false :=
      hcm.undefined_deleteFromHeaps hr hu
    split
    · dsimp only
      split
      · exact hz
      · split <;> exact hz
    · split <;> exact hu

theorem Members.undefined_doClean (hm : Members s) {now : ℚ} (h : s.doClean now = .ok s')
    (hu : s.undefined = false) : s'.undefined = false := by
  unfold PriorityQueueBase.doClean at h
  obtain ⟨⟨pts, ep⟩, -, h⟩ := except_bind_eq_ok.mp h
  cases h
  have h₀ : Members { s with cleanMarkPoints := pts } :=
    hm.sameMembers ⟨rfl, fun _ => List.Perm.refl _, rfl⟩
  split
  · exact (List.foldlRecOn (motive := fun t : PriorityQueueBase C R => Members t ∧
      t.undefined = false) _ _ _ ⟨h₀, hu⟩ fun _ ht c _ =>
        ⟨ht.1.cleanClient _ _ c, ht.1.classMembership.undefined_cleanClient _ _ c ht.2⟩).2
  · exact hu

/-- The step lemma: with the membership, an operation other than the two updates asks no heap
for a client it does not hold. -/
theorem Members.undefined_step (hm : Members s) {op : Op C R} {out : Out C R}
    (hop : op.installsClass = false) (hu : s.undefined = false) (h : s.step op = .ok (out, s')) :
    s'.undefined = false := by
  cases op with
  | addRequest => exact (undefined_doAddRequest (step_eq_ok s h).2).trans hu
  | pullRequest =>
    obtain ⟨p, -, hp⟩ := step_eq_ok s h
    exact hm.classMembership.undefined_pullRequest hp hu
  | scheduleRequest =>
    obtain ⟨p, -, hp⟩ := step_eq_ok s h
    rcases scheduleRequest_eq_ok s hp with ⟨-, -, rfl⟩ | ⟨-, hp⟩
    · exact hu
    · exact hm.classMembership.undefined_pullRequest hp hu
  | removeByClient c rev => cases h; exact (sameFiling_removeByClient c rev).undefined.trans hu
  | removeByReqFilter f vb =>
    cases h; exact (sameFiling_removeByReqFilter f vb).undefined.trans hu
  | updateClientInfo | updateClientInfos => cases hop
  | doClean => exact hm.undefined_doClean (step_eq_ok s h).2 hu

variable {b : ℕ} {idleAge eraseAge checkTime : ℚ} {alb : Bool} {at' cap win : ℚ}
  {s₀ : PriorityQueueBase C R} {ops : List (Op C R)} {outs : List (Out C R)}

omit [LinearOrder C] in
theorem undefined_of_init (h₀ : init b idleAge eraseAge checkTime alb at' cap win = .ok s₀) :
    s₀.undefined = false := by
  unfold init at h₀
  split at h₀
  · cases h₀
  · split at h₀
    · cases h₀
    · cases h₀; rfl

/-- **Without the two updates no deletion goes wrong.** In every run from the constructor's state
that calls neither `update_client_info` nor `update_client_infos`, whatever the callbacks, every
`delete_from_heap` of the roll-overs' migrations and of the cleaning finds its client in the heap,
so the source never reaches its undefined `remove(rfind())` at `end()`. -/
theorem run_undefined_eq_false (h₀ : init b idleAge eraseAge checkTime alb at' cap win = .ok s₀)
    (hops : ∀ op ∈ ops, op.installsClass = false) (h : s₀.run ops = .ok (outs, s)) :
    s.undefined = false :=
  (run_preserves (P := fun t => Members t ∧ t.undefined = false)
    (fun op hop _ _ _ ht hstep =>
      ⟨ht.1.step (hops op hop) hstep, ht.1.undefined_step (hops op hop) ht.2 hstep⟩)
    ⟨⟨(init_invariants h₀).1, by simp [ids, (init_eq_ok h₀).1]⟩, undefined_of_init h₀⟩ h).2

/-- Client 1, of class R, queues a request; the poll at 1 rolls the window over with a callback
that makes it a B client, and the migration deletes it from the R heaps, which hold it. The
cleaning at 2 appends a mark point, and the one at 1000 erases the client, deleting it from the
B heaps, which hold it. -/
theorem run_undefined_eq_false_after_migration_and_erase :
    ∃ (s₀ : PriorityQueueBase ℕ ℕ) (outs : List (Out ℕ ℕ)) (s : PriorityQueueBase ℕ ℕ),
      init 2 600 900 360 false 0 10 1 = .ok s₀ ∧
      s₀.run [.addRequest (fun _ => ⟨1, 1, 1, .R⟩) 100 1 {} 0,
        .pullRequest (fun _ => ⟨0, 1, 1, .B⟩) 1, .doClean 2, .doClean 1000] = .ok (outs, s) ∧
      s.clientMap = [] ∧ s.undefined = false := by
  refine ⟨_, ?outs, ?s, rfl, ?h, ?cm,
    @run_undefined_eq_false ℕ ℕ _ _ 2 600 900 360 false 0 10 1 _ _ _ rfl
      (by simp [Op.installsClass]) ?h⟩
  case h => exact rfl
  case cm => rfl

end Defined

end PriorityQueueBase

end DmclockServer
