import DmclockServer.Ladder

/-!
# Polling again

`pull_request(now)` answered with nothing to do (`None` or `Future(t)`) leaves a state on which
the same poll gives the same answer and the same state (`pullRequest_repeat`), when the heaps file
every client under one class (`Filed`): once in each heap of that class and in no other. That
class need not be the class of the client's record, which `update_client_info` changes without a
move; membership is the case where the two agree (`ClassMembership.filed`).

The first poll may roll the window over. A migration deletes the client from the heaps of its
record's class; when it finds the client there, it files it under its new class
(`Filed.moveToAnotherHeap`), and when it does not, the source removes at `rfind()`'s `end()`,
which is undefined, and the model sets `undefined` (`Sound`). The roll-over also moves the window
start to `now` or past it, so the second poll does not roll over again. Each limit walk of the
first poll ran until it stopped, and the walks after it touch neither its heaps nor the records
of their members, so in the second poll every walk stops at once and every rule answers as
before (`dispatchLadder_repeat`).
-/

namespace DmclockServer

namespace HeapSel

theorem ofClass_nodup (cls : ClientType) : (ofClass cls).Nodup := by
  cases cls <;> decide

/-- How often heaps that file a client under `k` hold it in heap `h`: once in each heap of class
`k`, and in none for `none`. -/
def filedCount : Option ClientType → HeapSel → ℕ
  | some k, h => if h ∈ ofClass k then 1 else 0
  | none, _ => 0

/-- Two classes that share a heap share all their heaps (A and O). -/
theorem ofClass_eq_of_mem {k k' : ClientType} {h : HeapSel} (hk : h ∈ ofClass k)
    (hk' : h ∈ ofClass k') : ofClass k = ofClass k' := by
  revert hk hk'
  cases k <;> cases k' <;> cases h <;> decide

theorem exists_mem_ofClass (k : ClientType) : ∃ h, h ∈ ofClass k := by
  cases k <;> exact ⟨_, List.mem_cons_self _ _⟩

theorem walkPair_limit : WalkPair limit burst := walkPair_of_mem (by decide)
theorem walkPair_rLimit : WalkPair rLimit deltar := walkPair_of_mem (by decide)
theorem walkPair_bestLimit : WalkPair bestLimit best := walkPair_of_mem (by decide)

end HeapSel

namespace PriorityQueueBase

variable {C R : Type} [LinearOrder C] {s s' s'' : PriorityQueueBase C R}

/-! ## Class membership across the roll-over -/

section Membership

/-- The ids and classes of the records, in the order of the client map. -/
def classes (s : PriorityQueueBase C R) : List (C × ClientType) :=
  s.clientMap.map fun r => (r.client, r.info.clientType)

theorem ClassMembership.of_classes (hcm : s.ClassMembership) (hc : s'.classes = s.classes)
    (hh : s'.heaps = s.heaps) : s'.ClassMembership :=
  hcm.congr hc fun _ => hh ▸ List.Perm.refl _

/-- Membership after client `c`, a client of `s`, moves to the heaps of class `k` and every record
of `c` takes class `k`, the other clients staying in their heaps. -/
theorem ClassMembership.reclass (hcm : s.ClassMembership) {c : C} {k : ClientType}
    (hcid : c ∈ s.clientMap.map (·.client))
    (hm : s'.classes = s.classes.map fun p => (p.1, if p.1 = c then k else p.2))
    (hc : ∀ h, (s'.heaps h).count c = if h ∈ HeapSel.ofClass k then 1 else 0)
    (ho : ∀ h a, a ≠ c → (s'.heaps h).count a = (s.heaps h).count a) : s'.ClassMembership := by
  have hids : s'.clientMap.map (·.client) = s.clientMap.map (·.client) := by
    simpa [classes, List.map_map, Function.comp_def] using congrArg (List.map Prod.fst) hm
  constructor
  · intro r' hr' h _
    have hmem : (r'.client, r'.info.clientType) ∈ s'.classes := List.mem_map_of_mem _ hr'
    rw [hm, classes, List.map_map] at hmem
    obtain ⟨r, hr, he⟩ := List.mem_map.mp hmem
    simp only [Function.comp_apply, Prod.mk.injEq] at he
    rw [← he.1, ← he.2]
    by_cases hrc : r.client = c
    · rw [if_pos hrc, hrc, hc]
    · rw [if_neg hrc, ho h _ hrc]
      exact hcm.1 r hr h (HeapSel.mem_all h)
  · intro h _ a ha
    rw [hids]
    by_cases hac : a = c
    · exact hac ▸ hcid
    · refine hcm.2 h (HeapSel.mem_all h) a (List.count_pos_iff.mp ?_)
      rw [← ho h a hac]
      exact List.count_pos_iff.mpr ha

omit [LinearOrder C] in
/-- One pass of a heap operation over distinct heaps, where the operation on heap `h` touches
only `h` and leaves there a permutation of `g` of its members. -/
theorem forHeaps_perm {hs : List HeapSel} (hnd : hs.Nodup)
    (op : PriorityQueueBase C R → HeapSel → PriorityQueueBase C R) (g : List C → List C)
    (hop : ∀ s h, ((op s h).heaps h).Perm (g (s.heaps h)))
    (hother : ∀ s h h', h' ≠ h → (op s h).heaps h' = s.heaps h') (s : PriorityQueueBase C R)
    (h : HeapSel) :
    ((s.forHeaps hs op).heaps h).Perm (if h ∈ hs then g (s.heaps h) else s.heaps h) := by
  induction hs generalizing s with
  | nil => exact List.Perm.refl _
  | cons h₀ hs ih =>
    obtain ⟨hh₀, hnd⟩ := List.nodup_cons.mp hnd
    refine (ih hnd (op s h₀)).trans ?_
    by_cases h₁ : h = h₀
    · subst h₁
      simpa [hh₀] using hop s h
    · simp only [List.mem_cons, h₁, false_or, hother s h₀ h h₁]
      exact List.Perm.refl _

/-- `move_to_another_heap` takes `c` out of the heaps of its class and puts it once into each
heap of the new class. -/
theorem heaps_moveToAnotherHeap {c : C} {client : ClientRec C R}
    (hc : s.findClient c = some client) (newInfo : ClientInfo) (h : HeapSel) :
    ((s.moveToAnotherHeap c newInfo).heaps h).Perm
      ((if h ∈ HeapSel.ofClass newInfo.clientType then [c] else []) ++
        if h ∈ HeapSel.ofClass client.info.clientType then (s.heaps h).erase c else s.heaps h) := by
  have hcl := findClient_client s hc
  have hdel := forHeaps_perm (HeapSel.ofClass_nodup client.info.clientType)
    (fun s h => s.heapDelete h client.client) (·.erase c)
    (fun s h => by simpa [heapDelete, hcl] using IndIntruHeap.deleteFromHeap_perm _ _ _ _)
    (fun s h h' hne => by simp [heapDelete, hne]) s h
  -- the tags inherited in between change records, not heaps
  have key (s₂ : PriorityQueueBase C R) (hh₂ : s₂.heaps = (s.deleteFromHeaps client).heaps) :
      (((s₂.forHeaps (HeapSel.ofClass newInfo.clientType) fun s h => s.heapPush h c).forHeaps
        (HeapSel.ofClass newInfo.clientType) fun s h => s.heapAdjust h c).heaps h).Perm
      ((if h ∈ HeapSel.ofClass newInfo.clientType then [c] else []) ++
        if h ∈ HeapSel.ofClass client.info.clientType then (s.heaps h).erase c
        else s.heaps h) := by
    have hpush := forHeaps_perm (HeapSel.ofClass_nodup newInfo.clientType)
      (fun s h => s.heapPush h c) (c :: ·)
      (fun s h => by simpa [heapPush] using IndIntruHeap.push_perm _ _ _ _)
      (fun s h h' hne => by simp [heapPush, hne]) s₂ h
    have hadj := forHeaps_perm (HeapSel.ofClass_nodup newInfo.clientType)
      (fun s h => s.heapAdjust h c) id
      (fun s h => by simpa [heapAdjust] using IndIntruHeap.adjust_perm _ _ _ _)
      (fun s h h' hne => by simp [heapAdjust, hne])
      (s₂.forHeaps (HeapSel.ofClass newInfo.clientType) fun s h => s.heapPush h c) h
    simp only [id, ite_self] at hadj
    refine hadj.trans (hpush.trans ?_)
    rw [hh₂]
    split
    · exact List.Perm.cons c hdel
    · exact hdel
  unfold moveToAnotherHeap
  rw [hc]
  dsimp only
  split <;> exact key _ rfl

omit [LinearOrder C] in
theorem classes_of_cores (h : s'.cores = s.cores) : s'.classes = s.classes := by
  simpa [cores, classes, ClientRec.core, List.map_map, Function.comp_def] using
    congrArg (List.map fun p => (p.1, p.2.2.1.clientType)) h

theorem ClassMembership.of_cores (hcm : s.ClassMembership) (hc : s'.cores = s.cores)
    (hh : s'.heaps = s.heaps) : s'.ClassMembership :=
  hcm.of_classes (classes_of_cores hc) hh

theorem classes_modifyClient {c : C} {f : ClientRec C R → ClientRec C R} {k : ClientType}
    (hf : ∀ r, (f r).client = r.client) (hk : ∀ r, (f r).info.clientType = k) :
    (s.modifyClient c f).classes = s.classes.map fun p => (p.1, if p.1 = c then k else p.2) := by
  simp only [classes, modifyClient, List.map_map]
  exact List.map_congr_left fun r _ => by by_cases h : r.client = c <;> simp [h, hf, hk]

theorem classes_modifyClient_of {c : C} {f : ClientRec C R → ClientRec C R}
    (hf : ∀ r, (f r).client = r.client ∧ (f r).info.clientType = r.info.clientType) :
    (s.modifyClient c f).classes = s.classes := by
  simp only [classes, modifyClient, List.map_map]
  exact List.map_congr_left fun r _ => by by_cases h : r.client = c <;> simp [h, hf]

/-- After `move_to_another_heap`, client `c` is once in each heap of the new class and in no
other; every other client stays where it was. -/
theorem count_moveToAnotherHeap (hcm : s.ClassMembership) {c : C} {client : ClientRec C R}
    (hc : s.findClient c = some client) (newInfo : ClientInfo) (h : HeapSel) (a : C) :
    ((s.moveToAnotherHeap c newInfo).heaps h).count a =
      if a = c then (if h ∈ HeapSel.ofClass newInfo.clientType then 1 else 0)
      else (s.heaps h).count a := by
  rw [(heaps_moveToAnotherHeap hc newInfo h).count_eq, List.count_append]
  by_cases hac : a = c
  · subst hac
    have hold := hcm.count_eq hc h
    split_ifs at hold ⊢ <;> simp_all [List.count_erase_self, List.count_eq_zero]
  · simp only [hac, if_false]
    split_ifs <;> simp [List.count_erase_of_ne hac, List.count_cons, hac]

theorem ClassMembership.addTotalWgtAndUpdateClientRes (hcm : s.ClassMembership) (w : ℚ) :
    (s.addTotalWgtAndUpdateClientRes w).ClassMembership :=
  hcm.of_cores (cores_addTotalWgtAndUpdateClientRes s w) rfl

/-- The info update of the roll-over keeps the membership: a client whose class changes is moved
to the heaps of its new class before the new info is installed. -/
theorem installInfo_classMembership (hcm : s.ClassMembership) {c : C} {r : ClientRec C R}
    (hr : s.findClient c = some r) (temp : ClientInfo) :
    (s.installInfo c r.info temp).ClassMembership := by
  unfold installInfo
  split
  · dsimp only
    -- the move, when there is one, puts `c` in the heaps of the new class
    have hmove : ∀ h a, ((if temp.clientType ≠ r.info.clientType then
        s.moveToAnotherHeap c temp else s).heaps h).count a =
        if a = c then (if h ∈ HeapSel.ofClass temp.clientType then 1 else 0)
        else (s.heaps h).count a := fun h a => by
      split
      · exact count_moveToAnotherHeap hcm hr temp h a
      · rename_i hsame
        rw [not_not] at hsame
        split
        · subst a
          rw [hcm.count_eq hr, hsame]
        · rfl
    have hcls : (if temp.clientType ≠ r.info.clientType then
        s.moveToAnotherHeap c temp else s).classes = s.classes := by
      split
      · exact classes_of_cores (moveToAnotherHeap_sameCores c temp).1
      · rfl
    have hcm' : ((if temp.clientType ≠ r.info.clientType then s.moveToAnotherHeap c temp
        else s).modifyClient c fun r => { r with info := temp }).ClassMembership :=
      hcm.reclass (c := c) (k := temp.clientType)
        (findClient_client s hr ▸ List.mem_map_of_mem _ (findClient_mem s hr))
        (by rw [classes_modifyClient (f := fun r => { r with info := temp })
          (k := temp.clientType) (fun _ => rfl) (fun _ => rfl), hcls])
        (fun h => by rw [heaps_modifyClient, hmove, if_pos rfl])
        (fun h a hac => by rw [heaps_modifyClient, hmove, if_neg hac])
    split
    · exact hcm'.addTotalWgtAndUpdateClientRes _
    · exact hcm'
  · exact hcm

theorem checkCompensation_classMembership (hcm : s.ClassMembership) (c : C) :
    (s.checkCompensation c).ClassMembership := by
  unfold checkCompensation compensate
  split
  · split
    · split
      · exact hcm
      · exact hcm.of_classes (classes_modifyClient_of fun _ => ⟨rfl, rfl⟩) rfl
    · exact hcm
  · exact hcm

theorem rollClient_classMembership (hcm : s.ClassMembership) (infoF : C → ClientInfo) (c : C) :
    (s.rollClient infoF c).ClassMembership := by
  unfold rollClient
  split
  · exact hcm
  · rename_i client hclient
    exact (checkCompensation_classMembership (installInfo_classMembership hcm hclient _) c).of_cores
      (cores_modifyClient _ ClientRec.core_resetCounters) rfl

/-- **The roll-over keeps the membership**, migrations included. -/
theorem windowRollover_classMembership (hcm : s.ClassMembership) (infoF : C → ClientInfo)
    (now : ℚ) : (s.windowRollover infoF now).ClassMembership :=
  List.foldlRecOn (motive := ClassMembership) _ _ _ (hcm.of_classes rfl rfl)
    fun _ ht c _ => rollClient_classMembership ht infoF c

end Membership

/-! ## The classes the heaps file clients under -/

section Filing

/-- The heaps file every client `a` under one class `g a`: once in each heap of that class and in
no other heap, in no heap for `g a = none`, and only clients of the map are filed. -/
structure Filed (s : PriorityQueueBase C R) (g : C → Option ClientType) : Prop where
  count : ∀ h a, (s.heaps h).count a = HeapSel.filedCount (g a) h
  client : ∀ a, (g a).isSome → a ∈ s.clientMap.map (·.client)

variable {g : C → Option ClientType}

theorem Filed.mem_heaps_iff (hf : s.Filed g) {a : C} {k : ClientType} (hk : g a = some k)
    (h : HeapSel) : a ∈ s.heaps h ↔ h ∈ HeapSel.ofClass k := by
  rw [← List.count_pos_iff, hf.count, hk, HeapSel.filedCount]
  split <;> simp_all

theorem Filed.class_of_mem (hf : s.Filed g) {a : C} {h : HeapSel} (ha : a ∈ s.heaps h) :
    ∃ k, g a = some k ∧ h ∈ HeapSel.ofClass k := by
  cases hk : g a with
  | none =>
    have hpos := List.count_pos_iff.mpr ha
    rw [hf.count, hk, HeapSel.filedCount] at hpos
    cases hpos
  | some k => exact ⟨k, rfl, (hf.mem_heaps_iff hk h).mp ha⟩

theorem Filed.not_mem_of_apart (hf : s.Filed g) {h h' : HeapSel}
    (hap : ∀ cls, h ∈ HeapSel.ofClass cls → h' ∉ HeapSel.ofClass cls) {x : C}
    (hx : x ∈ s.heaps h) : x ∉ s.heaps h' := by
  obtain ⟨k, hk, hh⟩ := hf.class_of_mem hx
  rw [hf.mem_heaps_iff hk]
  exact hap k hh

theorem Filed.heaps_eq_nil (hf : s.Filed g) {h h' : HeapSel}
    (hsub : ∀ cls, h ∈ HeapSel.ofClass cls → h' ∈ HeapSel.ofClass cls) (h0 : s.heaps h' = []) :
    s.heaps h = [] := by
  refine List.eq_nil_iff_forall_not_mem.mpr fun x hx => ?_
  obtain ⟨k, hk, hh⟩ := hf.class_of_mem hx
  have hx' := (hf.mem_heaps_iff hk h').mpr (hsub k hh)
  rw [h0] at hx'
  cases hx'

/-- Membership files each client under the class of its record. -/
theorem ClassMembership.filed (hcm : s.ClassMembership) :
    s.Filed fun a => (s.findClient a).map (·.info.clientType) := by
  refine ⟨fun h a => ?_, fun a ha => ?_⟩
  · cases hr : s.findClient a with
    | none =>
      refine List.count_eq_zero_of_not_mem fun ha => ?_
      obtain ⟨r, hr'⟩ := hcm.findClient_of_mem ha
      rw [hr] at hr'
      cases hr'
    | some r => exact hcm.count_eq hr h
  · cases hr : s.findClient a with
    | none => simp [hr] at ha
    | some r => exact findClient_client s hr ▸ List.mem_map_of_mem _ (findClient_mem s hr)

/-- `s'` has the client ids of `s`, each heap the members of that heap of `s`, and the flag of
`s`: what the filing reads. -/
structure SameFiling (s s' : PriorityQueueBase C R) : Prop where
  clients : s'.clientMap.map (·.client) = s.clientMap.map (·.client)
  perm : ∀ h, (s'.heaps h).Perm (s.heaps h)
  undefined : s'.undefined = s.undefined

omit [LinearOrder C] in
theorem SameFiling.rfl : SameFiling s s := ⟨Eq.refl _, fun _ => List.Perm.refl _, Eq.refl _⟩

omit [LinearOrder C] in
theorem SameFiling.trans (h₁ : SameFiling s s') (h₂ : SameFiling s' s'') : SameFiling s s'' :=
  ⟨h₂.1.trans h₁.1, fun h => (h₂.2 h).trans (h₁.2 h), h₂.3.trans h₁.3⟩

theorem Filed.sameFiling (hf : s.Filed g) (h : SameFiling s s') : s'.Filed g :=
  ⟨fun k a => ((h.perm k).count_eq a).trans (hf.count k a),
    fun a ha => h.clients ▸ hf.client a ha⟩

omit [LinearOrder C] in
theorem clients_of_classes (h : s'.classes = s.classes) :
    s'.clientMap.map (·.client) = s.clientMap.map (·.client) := by
  simpa [classes, List.map_map, Function.comp_def] using congrArg (List.map Prod.fst) h

/-- Changing the records of `c` without changing their id. -/
theorem sameFiling_modifyClient {c : C} {f : ClientRec C R → ClientRec C R}
    (hf : ∀ r, r.client = c → (f r).client = c) : SameFiling s (s.modifyClient c f) := by
  refine ⟨?_, fun _ => List.Perm.refl _, rfl⟩
  simp only [modifyClient, List.map_map]
  refine List.map_congr_left fun r _ => ?_
  by_cases h : r.client = c
  · simp [h, hf r h]
  · simp [h]

omit [LinearOrder C] in
theorem sameFiling_addTotalWgtAndUpdateClientRes (w : ℚ) :
    SameFiling s (s.addTotalWgtAndUpdateClientRes w) :=
  ⟨by simp [addTotalWgtAndUpdateClientRes, Function.comp_def], fun _ => List.Perm.refl _, rfl⟩

theorem SameFiling.setCompensated (h : SameFiling s s') (c : C) (i : ClientInfo) :
    SameFiling s (s'.setCompensated c i) := ⟨h.1, h.2, h.3⟩

theorem sameFiling_checkCompensation (c : C) : SameFiling s (s.checkCompensation c) := by
  unfold checkCompensation compensate
  split
  · split
    · split
      · exact .rfl
      · refine SameFiling.setCompensated ?_ _ _
        exact sameFiling_modifyClient fun _ h => h
    · exact .rfl
  · exact .rfl

/-- The heaps file every client under some class, unless a deletion went wrong. -/
def Sound (s : PriorityQueueBase C R) : Prop := s.undefined = false → ∃ g, s.Filed g

theorem Sound.sameFiling (hs : s.Sound) (h : SameFiling s s') : s'.Sound := fun hu =>
  (hs (h.undefined ▸ hu)).imp fun _ hf => hf.sameFiling h

omit [LinearOrder C] in
theorem undefined_forHeaps (hs : List HeapSel)
    (op : PriorityQueueBase C R → HeapSel → PriorityQueueBase C R)
    (hop : ∀ t h, (op t h).undefined = t.undefined) : (s.forHeaps hs op).undefined = s.undefined :=
  foldl_keeps s (·.undefined) hs hop

/-- A pass of deletions over distinct heaps goes right when each of them holds the client. -/
theorem undefined_forHeaps_heapDelete {hs : List HeapSel} (hnd : hs.Nodup) (c : C) :
    (s.forHeaps hs fun s h => s.heapDelete h c).undefined = false ↔
      s.undefined = false ∧ ∀ h ∈ hs, c ∈ s.heaps h := by
  induction hs generalizing s with
  | nil => simp [forHeaps]
  | cons h₀ hs ih =>
    obtain ⟨hh₀, hnd⟩ := List.nodup_cons.mp hnd
    have hall : (∀ h ∈ hs, c ∈ (s.heapDelete h₀ c).heaps h) ↔ ∀ h ∈ hs, c ∈ s.heaps h :=
      forall₂_congr fun h hh => by
        simp [heapDelete, setHeap, show h ≠ h₀ from fun e => hh₀ (e ▸ hh)]
    show ((s.heapDelete h₀ c).forHeaps hs fun s h => s.heapDelete h c).undefined = false ↔ _
    rw [ih hnd, hall, List.forall_mem_cons, ← and_assoc]
    simp [heapDelete]

theorem undefined_deleteFromHeaps (r : ClientRec C R) :
    (s.deleteFromHeaps r).undefined = false ↔
      s.undefined = false ∧ ∀ h ∈ HeapSel.ofClass r.info.clientType, r.client ∈ s.heaps h :=
  undefined_forHeaps_heapDelete (HeapSel.ofClass_nodup _) _

theorem undefined_moveToAnotherHeap {c : C} {client : ClientRec C R}
    (hc : s.findClient c = some client) (i : ClientInfo) :
    (s.moveToAnotherHeap c i).undefined = (s.deleteFromHeaps client).undefined := by
  unfold moveToAnotherHeap
  rw [hc]
  dsimp only
  rw [undefined_forHeaps _ (fun s h => s.heapAdjust h c) fun _ _ => rfl,
    undefined_forHeaps _ (fun s h => s.heapPush h c) fun _ _ => rfl]
  split <;> rfl

/-- A move that finds the client in each heap of its record's class files it under its new
class. -/
theorem Filed.moveToAnotherHeap (hf : s.Filed g) {c : C} {client : ClientRec C R}
    (hc : s.findClient c = some client)
    (hin : ∀ h ∈ HeapSel.ofClass client.info.clientType, c ∈ s.heaps h) (i : ClientInfo) :
    (s.moveToAnotherHeap c i).Filed (Function.update g c (some i.clientType)) := by
  -- `c` is filed under a class with the heaps of its record's class
  obtain ⟨h₀, hh₀⟩ := HeapSel.exists_mem_ofClass client.info.clientType
  obtain ⟨k, hk, hkh⟩ := hf.class_of_mem (hin h₀ hh₀)
  have hold := HeapSel.ofClass_eq_of_mem hkh hh₀
  refine ⟨fun h a => ?_, fun a ha => ?_⟩
  · rw [(heaps_moveToAnotherHeap hc i h).count_eq, List.count_append]
    by_cases hac : a = c
    · subst hac
      have hcount := hf.count h a
      rw [hk, HeapSel.filedCount, hold] at hcount
      rw [Function.update_same, HeapSel.filedCount]
      split_ifs at hcount ⊢ <;> simp_all [List.count_erase_self]
    · rw [Function.update_noteq hac, ← hf.count h a]
      split_ifs <;> simp [List.count_erase_of_ne hac, hac]
  · rw [clients_of_classes (classes_of_cores (moveToAnotherHeap_sameCores c i).1)]
    by_cases hac : a = c
    · exact hac ▸ findClient_client s hc ▸ List.mem_map_of_mem _ (findClient_mem s hc)
    · exact hf.client a (by rwa [Function.update_noteq hac] at ha)

/-- The info update of the roll-over: a move when the class changed, which files the client under
its new class when it finds it in the heaps of its record's class, then the new info and
weight. -/
theorem Sound.installInfo (hs : s.Sound) {c : C} {r : ClientRec C R}
    (hr : s.findClient c = some r) (temp : ClientInfo) : (s.installInfo c r.info temp).Sound := by
  unfold PriorityQueueBase.installInfo
  split
  · dsimp only
    have hmove : (if temp.clientType ≠ r.info.clientType then s.moveToAnotherHeap c temp
        else s).Sound := by
      split
      · intro hu
        rw [undefined_moveToAnotherHeap hr, undefined_deleteFromHeaps] at hu
        obtain ⟨g, hg⟩ := hs hu.1
        exact ⟨_, hg.moveToAnotherHeap hr (findClient_client s hr ▸ hu.2) temp⟩
      · exact hs
    have hinfo := hmove.sameFiling (sameFiling_modifyClient (c := c)
      (f := fun r => { r with info := temp }) fun _ h => h)
    split
    · exact hinfo.sameFiling (sameFiling_addTotalWgtAndUpdateClientRes _)
    · exact hinfo
  · exact hs

theorem Sound.rollClient (hs : s.Sound) (infoF : C → ClientInfo) (c : C) :
    (s.rollClient infoF c).Sound := by
  unfold PriorityQueueBase.rollClient
  split
  · exact hs
  · rename_i client hclient
    exact ((hs.installInfo hclient _).sameFiling (sameFiling_checkCompensation c)).sameFiling
      (sameFiling_modifyClient fun _ h => h)

/-- **The roll-over keeps the filing** unless one of its migrations deletes a client from heaps
that do not hold it. -/
theorem Sound.windowRollover (hs : s.Sound) (infoF : C → ClientInfo) (now : ℚ) :
    (s.windowRollover infoF now).Sound :=
  List.foldlRecOn (motive := Sound) _ _ _ (hs.sameFiling ⟨rfl, fun _ => List.Perm.refl _, rfl⟩)
    fun _ ht c _ => ht.rollClient infoF c

end Filing

/-! ## The window -/

section Window

/-- The window start and size. -/
def window (s : PriorityQueueBase C R) : ℚ × ℚ := (s.winStart, s.winSize)

omit [LinearOrder C] in
theorem window_forHeaps (hs : List HeapSel)
    (op : PriorityQueueBase C R → HeapSel → PriorityQueueBase C R)
    (hop : ∀ t h, (op t h).window = t.window) : (s.forHeaps hs op).window = s.window :=
  foldl_keeps s window hs hop

theorem window_moveToAnotherHeap (c : C) (i : ClientInfo) :
    (s.moveToAnotherHeap c i).window = s.window := by
  unfold moveToAnotherHeap
  split
  · rfl
  · dsimp only
    rw [window_forHeaps _ (fun s h => s.heapAdjust h c) fun _ _ => rfl,
      window_forHeaps _ (fun s h => s.heapPush h c) fun _ _ => rfl]
    split <;> exact window_forHeaps _ (fun s h => s.heapDelete h _) fun _ _ => rfl

theorem window_rollClient (infoF : C → ClientInfo) (c : C) :
    (s.rollClient infoF c).window = s.window := by
  have hcheck (t : PriorityQueueBase C R) : (t.checkCompensation c).window = t.window := by
    unfold checkCompensation compensate
    split
    · split
      · split <;> rfl
      · rfl
    · rfl
  unfold rollClient
  split
  · rfl
  · refine (hcheck _).trans ?_
    unfold installInfo
    split
    · dsimp only
      split_ifs <;> first | rfl | exact window_moveToAnotherHeap c _
    · rfl

/-- The roll-over moves the window start to the end of the window, or to `now` when that is
later. -/
theorem window_windowRollover (infoF : C → ClientInfo) (now : ℚ) :
    (s.windowRollover infoF now).window = (max (s.winStart + s.winSize) now, s.winSize) := by
  unfold windowRollover
  rw [foldl_keeps _ window _ fun t c => window_rollClient (s := t) infoF c]
  rfl

end Window

/-! ## What a walk leaves alone -/

section WalkFrame

variable {lh ph : HeapSel} {now : ℚ}

theorem promoteWalkLoop_window (fuel : ℕ) (s : PriorityQueueBase C R) :
    (promoteWalkLoop lh ph now fuel s).window = s.window :=
  promoteWalkLoop_induction (P := fun t => t.window = s.window) (fun _ _ _ _ _ _ _ ht => ht)
    fuel s rfl

theorem promoteWalk_window (s : PriorityQueueBase C R) :
    (s.promoteWalk lh ph now).window = s.window :=
  promoteWalkLoop_window _ s

theorem promoteWalkLoop_heaps_of_ne (hne : lh ≠ ph) {h : HeapSel} (hlh : h ≠ lh) (hph : h ≠ ph)
    (fuel : ℕ) (s : PriorityQueueBase C R) :
    (promoteWalkLoop lh ph now fuel s).heaps h = s.heaps h :=
  promoteWalkLoop_induction (P := fun t => t.heaps h = s.heaps h)
    (fun _ _ _ _ _ _ _ ht => (walkRound_heaps hne h).trans (by rw [if_neg hlh, if_neg hph, ht]))
    fuel s rfl

theorem promoteWalkLoop_sameFiling (hne : lh ≠ ph) (fuel : ℕ) (s : PriorityQueueBase C R) :
    SameFiling s (promoteWalkLoop lh ph now fuel s) :=
  promoteWalkLoop_induction (P := SameFiling s) (fun _ _ _ _ _ _ _ ht => ht.trans
    ⟨clients_of_classes (classes_modifyClient_of fun _ => ⟨rfl, rfl⟩), walkRound_perm hne, rfl⟩)
    fuel s .rfl

/-- A walk of `lh` leaves alone a heap it does not touch, and the records of its members, when
none of them is in `lh`. -/
theorem topRec_promoteWalkLoop (hp : HeapSel.WalkPair lh ph) {h : HeapSel} (hlh : h ≠ lh)
    (hph : h ≠ ph) (hsep : ∀ x ∈ s.heaps h, x ∉ s.heaps lh) (fuel : ℕ) :
    (promoteWalkLoop lh ph now fuel s).topRec h = s.topRec h := by
  have hst : WalkStep lh now s (promoteWalkLoop lh ph now fuel s) :=
    promoteWalkLoop_walkStep hp fuel s
  unfold topRec heapTop
  rw [promoteWalkLoop_heaps_of_ne hp.ne hlh hph]
  cases hx : (s.heaps h).head? with
  | none => rfl
  | some x =>
    rcases hst.readies x with he | ⟨hmem, -⟩
    · exact he
    · exact absurd hmem (hsep x (List.mem_of_mem_head? hx))

theorem topRec_promoteWalk (hp : HeapSel.WalkPair lh ph) {g : C → Option ClientType}
    (hf : s.Filed g) {h : HeapSel} (hlh : h ≠ lh) (hph : h ≠ ph)
    (hap : ∀ cls, h ∈ HeapSel.ofClass cls → lh ∉ HeapSel.ofClass cls) :
    (s.promoteWalk lh ph now).topRec h = s.topRec h :=
  topRec_promoteWalkLoop hp hlh hph (fun _ hx => hf.not_mem_of_apart hap hx) _

theorem reservationRule_eq_none_iff {now : ℚ} : s.reservationRule now = none ↔
    ∀ r, s.topRec .resv = some r → ∀ t, r.head? = some t → ¬ t.reservation ≤ .fin now := by
  unfold reservationRule
  cases s.topRec .resv with
  | none => simp
  | some r =>
    cases hh : r.head? with
    | none => simp [hh]
    | some t =>
      by_cases ht : t.reservation ≤ .fin now
      · simp [hh, ht]
      · simp [hh, not_le.mp ht]

/-- Readying a head keeps its reservation tag, so a walk that leaves `resv_heap` as it is
leaves rule 1 with nothing to serve when it had nothing before. -/
theorem reservationRule_promoteWalkLoop (hp : HeapSel.WalkPair lh ph) (hlh : HeapSel.resv ≠ lh)
    (hph : HeapSel.resv ≠ ph) {now' : ℚ} (h : s.reservationRule now' = none) (fuel : ℕ) :
    (promoteWalkLoop lh ph now fuel s).reservationRule now' = none := by
  have hst : WalkStep lh now s (promoteWalkLoop lh ph now fuel s) :=
    promoteWalkLoop_walkStep hp fuel s
  rw [reservationRule_eq_none_iff] at h ⊢
  intro r' htop' t' ht'
  unfold topRec heapTop at htop'
  rw [promoteWalkLoop_heaps_of_ne hp.ne hlh hph] at htop'
  obtain ⟨x, hx, hfx⟩ := Option.bind_eq_some.mp htop'
  have htop : ∀ r, s.findClient x = some r → s.topRec .resv = some r := fun r hr => by
    simp [topRec, heapTop, hx, hr]
  rcases hst.readies x with he | ⟨-, r, q, hr, hq, -, -, hr'⟩
  · exact h r' (htop r' (he ▸ hfx)) t' ht'
  · rw [hfx, Option.some.injEq] at hr'
    subst hr'
    simp only [ClientRec.head?, ClientRec.nextRequest_setHeadTag hq, Option.map_some',
      Option.some.injEq] at ht'
    subst ht'
    exact h r (htop r hr) q.tag (by simp [ClientRec.head?, hq])

theorem walkStops_congr (h : s'.topRec lh = s.topRec lh) :
    WalkStops lh now s' ↔ WalkStops lh now s := by
  unfold WalkStops
  rw [h]

end WalkFrame

/-! ## The ladder run again -/

section Ladder

variable {now : ℚ} {n : NextReq}

theorem reservationRule_congr (h : s'.topRec .resv = s.topRec .resv) (now : ℚ) :
    s'.reservationRule now = s.reservationRule now := by
  unfold reservationRule
  rw [h]

theorem readyRule_congr {h : HeapSel} (ht : s'.topRec h = s.topRec h)
    (b : ClientRec C R → Bool) : s'.readyRule h b = s.readyRule h b := by
  unfold readyRule
  rw [ht]

theorem limitBreak_returning (h : s.limitBreak = some (n, s')) : ∃ hid, n = .returning hid := by
  unfold limitBreak at h
  split at h
  · repeat' split at h
    all_goals cases h <;> exact ⟨_, rfl⟩
  · cases h

/-- A ladder that serves nothing found no rule to serve and no limit break after its three walks,
and handed back the next call of the walked state. -/
theorem dispatchLadder_idle (h : s.dispatchLadder now = .ok (n, s'))
    (hn : ∀ hid, n ≠ .returning hid) :
    s.reservationRule now = none ∧ (s.promoteWalk .limit .burst now).burstRule = none ∧
      ((s.promoteWalk .limit .burst now).promoteWalk .rLimit .deltar now).deltarRule = none ∧
      s' = ((s.promoteWalk .limit .burst now).promoteWalk .rLimit .deltar now).promoteWalk
        .bestLimit .best now ∧
      s'.bestRule = none ∧ s'.limitBreak = none ∧ s'.nextCall = .ok n := by
  unfold dispatchLadder at h
  split at h
  · cases h
    exact absurd rfl (hn _)
  rename_i h₁
  dsimp only at h
  split at h
  · cases h
    exact absurd rfl (hn _)
  rename_i h₃
  split at h
  · cases h
    exact absurd rfl (hn _)
  rename_i h₅
  split at h
  · cases h
    exact absurd rfl (hn _)
  rename_i h₇
  split at h
  · rename_i hlb
    cases h
    obtain ⟨hid, rfl⟩ := limitBreak_returning hlb
    exact absurd rfl (hn hid)
  rename_i hlb
  obtain ⟨n', hn', he⟩ := except_map_eq_ok.mp h
  cases he
  exact ⟨h₁, h₃, h₅, rfl, h₇, hlb, hn'⟩

theorem deltarRule_congr (ht : s'.topRec .deltar = s.topRec .deltar)
    (hw : s'.winSize = s.winSize) : s'.deltarRule = s.deltarRule := by
  unfold deltarRule
  rw [hw, readyRule_congr ht]

/-- A walk that has run stops at once: its fuel covers the members with a head not ready. -/
theorem promoteWalk_walkStops {lh ph : HeapSel} (hp : HeapSel.WalkPair lh ph)
    (s : PriorityQueueBase C R) : WalkStops lh now (s.promoteWalk lh ph now) :=
  promoteWalkLoop_walkStops hp _ s (Nat.lt_succ_of_le (List.countP_le_length _))

/-- **The ladder serves nothing again.** On a state whose heaps file every client under one
class, a ladder that serves nothing leaves a state on which it again serves nothing and hands
back the same next call, changing nothing: each walk stopped, and a later walk touches neither
the heaps an earlier rule read nor, but for the ready flag in `resv_heap`, the records of their
members. -/
theorem dispatchLadder_repeat {g : C → Option ClientType} (hf : s.Filed g)
    (h : s.dispatchLadder now = .ok (n, s')) (hn : ∀ hid, n ≠ .returning hid) :
    s'.dispatchLadder now = .ok (n, s') := by
  obtain ⟨h₁, h₃, h₅, rfl, h₇, hlb, hnc⟩ := dispatchLadder_idle h hn
  have hp₁ := HeapSel.walkPair_limit
  have hp₂ := HeapSel.walkPair_rLimit
  have hp₃ := HeapSel.walkPair_bestLimit
  set t₁ := s.promoteWalk .limit .burst now
  set t₂ := t₁.promoteWalk .rLimit .deltar now
  set t₃ := t₂.promoteWalk .bestLimit .best now
  have hf₁ : t₁.Filed g := hf.sameFiling (promoteWalkLoop_sameFiling hp₁.ne _ s)
  have hf₂ : t₂.Filed g := hf₁.sameFiling (promoteWalkLoop_sameFiling hp₂.ne _ t₁)
  -- the heaps the later walks leave alone
  have e₁ : t₁.topRec .resv = s.topRec .resv :=
    topRec_promoteWalk hp₁ hf (by decide) (by decide) fun cls => by cases cls <;> decide
  have e₂ {h : HeapSel} (hlh : h ≠ .rLimit) (hph : h ≠ .deltar)
      (hap : ∀ cls, h ∈ HeapSel.ofClass cls → HeapSel.rLimit ∉ HeapSel.ofClass cls) :
      t₂.topRec h = t₁.topRec h := topRec_promoteWalk hp₂ hf₁ hlh hph hap
  have e₃ {h : HeapSel} (hlh : h ≠ .bestLimit) (hph : h ≠ .best)
      (hap : ∀ cls, h ∈ HeapSel.ofClass cls → HeapSel.bestLimit ∉ HeapSel.ofClass cls) :
      t₃.topRec h = t₂.topRec h := topRec_promoteWalk hp₃ hf₂ hlh hph hap
  have hres : t₃.reservationRule now = none := by
    rw [reservationRule_congr (e₃ (by decide) (by decide) fun cls => by cases cls <;> decide)]
    exact reservationRule_promoteWalkLoop hp₂ (by decide) (by decide)
      (by rwa [reservationRule_congr e₁]) _
  have hlim : t₃.topRec .limit = t₁.topRec .limit :=
    (e₃ (by decide) (by decide) fun cls => by cases cls <;> decide).trans
      (e₂ (by decide) (by decide) fun cls => by cases cls <;> decide)
  have hburst : t₃.topRec .burst = t₁.topRec .burst :=
    (e₃ (by decide) (by decide) fun cls => by cases cls <;> decide).trans
      (e₂ (by decide) (by decide) fun cls => by cases cls <;> decide)
  have hrlim : t₃.topRec .rLimit = t₂.topRec .rLimit :=
    e₃ (by decide) (by decide) fun cls => by cases cls <;> decide
  have hdeltar : t₃.topRec .deltar = t₂.topRec .deltar :=
    e₃ (by decide) (by decide) fun cls => by cases cls <;> decide
  have hw₁ : t₃.promoteWalk .limit .burst now = t₃ :=
    promoteWalkLoop_of_stops ((walkStops_congr hlim).mpr (promoteWalk_walkStops hp₁ s)) _
  have hw₂ : t₃.promoteWalk .rLimit .deltar now = t₃ :=
    promoteWalkLoop_of_stops ((walkStops_congr hrlim).mpr (promoteWalk_walkStops hp₂ t₁)) _
  have hw₃ : t₃.promoteWalk .bestLimit .best now = t₃ :=
    promoteWalkLoop_of_stops (promoteWalk_walkStops hp₃ t₂) _
  have hb : t₃.burstRule = none := by
    unfold burstRule at h₃ ⊢
    rwa [readyRule_congr hburst]
  have hd : t₃.deltarRule = none := by
    rwa [deltarRule_congr hdeltar (congrArg Prod.snd (promoteWalk_window t₂))]
  simp only [dispatchLadder, hres, hw₁, hb, hw₂, hd, hw₃, h₇, hlb, hnc]
  rfl

end Ladder

/-! ## The poll run again -/

section Poll

variable {infoF : C → ClientInfo} {now : ℚ}

theorem nextCall_of_empty (hres : s.heaps .resv = []) (hr : s.heaps .rLimit = [])
    (hl : s.heaps .limit = []) : s.nextCall = .ok .none := by
  simp [nextCall, limitNextCall, topRec, heapTop, hres, hr, hl, bind, Except.bind, pure,
    Except.pure]

/-- **Polling again after nothing to do.** On a state whose heaps file every client under one
class, with a window that is not empty, a call of `do_next_request(now)` that serves nothing and
whose roll-over deletes no client from heaps that do not hold it leaves a state on which the same
call, with any callback, gives the same answer and changes nothing. -/
theorem doNextRequest_repeat (hs : s.Sound) (hwin : 0 < s.winSize) {n : NextReq}
    (h : s.doNextRequest infoF now = .ok (n, s')) (hdef : s'.undefined = false)
    (hn : ∀ hid, n ≠ .returning hid) (infoF' : C → ClientInfo) :
    s'.doNextRequest infoF' now = .ok (n, s') := by
  unfold doNextRequest at h
  split at h
  · rename_i hempty
    cases h
    unfold doNextRequest
    rw [if_pos hempty]
  dsimp only at h
  -- the roll-over, if there is one, keeps the filing and moves the window start past `now`
  have hr : (if now - s.winStart ≥ s.winSize then s.windowRollover infoF now else s).Sound ∧
      ¬ now - (if now - s.winStart ≥ s.winSize then s.windowRollover infoF now else s).winStart ≥
        (if now - s.winStart ≥ s.winSize then s.windowRollover infoF now else s).winSize := by
    split
    · have hw := window_windowRollover (s := s) infoF now
      simp only [window, Prod.mk.injEq] at hw
      rw [hw.1, hw.2]
      exact ⟨hs.windowRollover infoF now, by
        have := le_max_right (s.winStart + s.winSize) now
        linarith⟩
    · exact ⟨hs, ‹_›⟩
  generalize (if now - s.winStart ≥ s.winSize then s.windowRollover infoF now else s) = t at h hr
  obtain ⟨-, -, -, hs', -, -, hnc⟩ := dispatchLadder_idle h hn
  -- the walks keep the filing and the flag
  have hw : SameFiling t s' := by
    rw [hs']
    exact ((promoteWalkLoop_sameFiling HeapSel.walkPair_limit.ne _ _).trans
      (promoteWalkLoop_sameFiling HeapSel.walkPair_rLimit.ne _ _)).trans
      (promoteWalkLoop_sameFiling HeapSel.walkPair_bestLimit.ne _ _)
  obtain ⟨g, hf⟩ := hr.1 (hw.undefined ▸ hdef)
  have hf' := hf.sameFiling hw
  have hwin' : s'.window = t.window := by
    rw [hs', promoteWalk_window, promoteWalk_window, promoteWalk_window]
  have hrep := dispatchLadder_repeat hf h hn
  unfold doNextRequest
  split
  · -- with the three heaps the emptiness test reads empty, the next call is none
    rename_i hempty
    simp only [List.isEmpty_iff] at hempty
    obtain ⟨hres, hburst, -⟩ := hempty
    have hnone := nextCall_of_empty hres
      (hf'.heaps_eq_nil (fun cls => by cases cls <;> decide) hres)
      (hf'.heaps_eq_nil (fun cls => by cases cls <;> decide) hburst)
    rw [hnone, Except.ok.injEq] at hnc
    rw [← hnc]
  · simp only [window, Prod.mk.injEq] at hwin'
    rw [if_neg (by rw [hwin'.1, hwin'.2]; exact hr.2)]
    exact hrep

/-- **A poll with nothing to do, repeated.** On a state whose heaps file every client under one
class, with a window that is not empty, a `pull_request(now)` answered with `None` or
`Future(t)`, whose roll-over deletes no client from heaps that do not hold it, leaves a state on
which `pull_request(now)`, with any callback, gives the same answer and leaves the state as it
is. -/
theorem pullRequest_repeat (hs : s.Sound) (hwin : 0 < s.winSize) {p : PullReq C R}
    (h : s.pullRequest infoF now = .ok (p, s')) (hdef : s'.undefined = false)
    (hp : p = .none ∨ ∃ t, p = .future t) (infoF' : C → ClientInfo) :
    s'.pullRequest infoF' now = .ok (p, s') := by
  unfold pullRequest at h
  obtain ⟨⟨next, s₁⟩, hnext, h⟩ := except_bind_eq_ok.mp h
  dsimp only at h
  split at h
  · cases h
    unfold pullRequest
    rw [doNextRequest_repeat hs hwin hnext hdef (fun _ h => by cases h) infoF']
    rfl
  · cases h
    unfold pullRequest
    rw [doNextRequest_repeat hs hwin hnext hdef (fun _ h => by cases h) infoF']
    rfl
  · -- a dispatch is not an answer with nothing to do
    rcases hp with rfl | ⟨_, rfl⟩ <;> split at h <;>
      first | cases h | (simp only [bind, Except.bind] at h; split at h <;> cases h)

end Poll

end PriorityQueueBase

end DmclockServer
