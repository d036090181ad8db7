import DmclockServer.Accounting
import DmclockServer.Ladder

/-!
# The budget counters under each operation

Rules 3 and 5 of the ladder check a client's window counter, `b_counter` or `deltar_counter`,
against its budget, `max(resource, 0)` or `max(resource - reservation * win_size, 0)`, and bump
the counter of the client they serve. This module says what every operation does to those counters
and budgets. An operation other than a dispatch keeps every client's counters, or creates a client
with both counters at 0 (`KeepsCounters`, built from `SubCounters` for the operations that create
no client: `removeByClient_subCounters`, `doClean_subCounters` and the others,
`doAddRequest_keepsCounters`). The roll-over zeroes the counters of every client
(`windowRollover_counters`). A poll bumps client `c`'s ρ counter exactly when `do_next_request`
dispatches to `c` by ρ, after `c` passed ρ's check, and leaves every budget as that check read it
(`DispatchEffect`, `dispatchLadder_effect`, `pullRequest_effect`). The dispatch is named as
`do_next_request` decides it: the heap id it returns and the client on top of that heap, the client
`pull_request` hands out (`pullRequest_returning_dispatchOf`).
-/


namespace DmclockServer

/-- The two rules of the ladder that check a window budget: rule 3 (`burst_heap`, `b_counter`)
and rule 5 (`deltar_heap`, `deltar_counter`). -/
inductive BudgetRule where
  | burst
  | deltar
  deriving DecidableEq, Repr

namespace ClientRec

variable {C R : Type}

/-- The two budget counters of a record. -/
def counters (r : ClientRec C R) : ℕ × ℕ := (r.bCounter, r.deltarCounter)

/-- What the budget rules read of a record: its counters, its resource and its reservation. -/
def budgetView (r : ClientRec C R) : (ℕ × ℕ) × Option Dbl × ℚ :=
  (r.counters, r.resource, r.info.reservation)

end ClientRec

namespace BudgetRule

variable {C R : Type}

/-- The heap id `do_next_request` returns for a dispatch by the rule. -/
def heapId : BudgetRule → HeapId
  | burst => .burst
  | deltar => .deltar

/-- The heap the rule reads, and `pull_request` pops after it. -/
def heap : BudgetRule → HeapSel
  | burst => .burst
  | deltar => .deltar

/-- The rule's counter among the two. -/
def counterOf : BudgetRule → ℕ × ℕ → ℕ
  | burst, k => k.1
  | deltar, k => k.2

/-- The rule's counter of a record. -/
def counter (ρ : BudgetRule) (r : ClientRec C R) : ℕ := ρ.counterOf r.counters

/-- The rule's budget with window size `w`: `max(resource, 0)` or `max(resource - reservation *
win_size, 0)`, where `none` is NaN. -/
def budget : BudgetRule → ℚ → ClientRec C R → Option Dbl
  | burst, _, r => Dbl.maxZero r.resource
  | deltar, w, r => Dbl.maxZero (Dbl.subQ r.resource (r.info.reservation * w))

/-- The rule's check: the counter is below the budget. -/
def check (ρ : BudgetRule) (w : ℚ) (r : ClientRec C R) : Bool :=
  Dbl.natLt (ρ.counter r) (ρ.budget w r)

/-- The record with the rule's counter bumped, as the ladder leaves the client it serves. -/
def bumpRec : BudgetRule → ClientRec C R → ClientRec C R
  | burst, r => { r with bCounter := bump r.bCounter }
  | deltar, r => { r with deltarCounter := bump r.deltarCounter }

variable {r r' : ClientRec C R}

theorem counter_congr (ρ : BudgetRule) (h : r'.counters = r.counters) :
    ρ.counter r' = ρ.counter r := by
  simp only [counter, h]

theorem budget_congr (ρ : BudgetRule) (w : ℚ) (h : r'.budgetView = r.budgetView) :
    ρ.budget w r' = ρ.budget w r := by
  simp only [ClientRec.budgetView, Prod.mk.injEq] at h
  cases ρ <;> simp only [budget, h]

@[simp] theorem counter_bumpRec (ρ ρ₀ : BudgetRule) :
    ρ.counter (ρ₀.bumpRec r) = if ρ = ρ₀ then bump (ρ.counter r) else ρ.counter r := by
  cases ρ <;> cases ρ₀ <;> rfl

@[simp] theorem budget_bumpRec (ρ ρ₀ : BudgetRule) (w : ℚ) :
    ρ.budget w (ρ₀.bumpRec r) = ρ.budget w r := by
  cases ρ <;> cases ρ₀ <;> rfl

@[simp] theorem client_bumpRec (ρ : BudgetRule) : (ρ.bumpRec r).client = r.client := by
  cases ρ <;> rfl

end BudgetRule

/-- Reducing the reservation tags changes neither the record's id nor its budget view. -/
theorem ClientRec.reduceReservation_view {C R : Type} (r : ClientRec C R) (d : ℚ) :
    (r.reduceReservation d).client = r.client ∧
      (r.reduceReservation d).budgetView = r.budgetView := by
  unfold reduceReservation
  split <;> exact ⟨rfl, rfl⟩

/-- The heap `pull_request` pops for a heap id that `do_next_request` returns. -/
def HeapId.popHeap : HeapId → Option HeapSel
  | .reservation => some .resv
  | .deltar => some .deltar
  | .burst => some .burst
  | .bestEffort => some .best
  | _ => none

namespace PriorityQueueBase

variable {C R : Type} [LinearOrder C] {s t u : PriorityQueueBase C R}

/-! ## Moves that change no counter -/

section Counters

/-- A move that creates no client and changes no budget counter: `allow_limit_break` as it was, and
every record with the counters of its client's record before. -/
structure SubCounters (s t : PriorityQueueBase C R) : Prop where
  allowLimitBreak : t.allowLimitBreak = s.allowLimitBreak
  counters : ∀ c r', t.findClient c = some r' →
    ∃ r, s.findClient c = some r ∧ r'.counters = r.counters

theorem SubCounters.rfl : SubCounters s s := ⟨Eq.refl _, fun _ r h => ⟨r, h, Eq.refl _⟩⟩

theorem SubCounters.trans (h₁ : SubCounters s t) (h₂ : SubCounters t u) : SubCounters s u := by
  refine ⟨h₂.1.trans h₁.1, fun c r'' h => ?_⟩
  obtain ⟨r', hr', e'⟩ := h₂.2 c r'' h
  obtain ⟨r, hr, e⟩ := h₁.2 c r' hr'
  exact ⟨r, hr, e'.trans e⟩

theorem subCounters_of_clientMap (hm : t.clientMap = s.clientMap)
    (ha : t.allowLimitBreak = s.allowLimitBreak) : SubCounters s t :=
  ⟨ha, fun _ r h => ⟨r, by rwa [findClient, hm] at h, Eq.refl _⟩⟩

theorem subCounters_forHeaps (hs : List HeapSel)
    {op : PriorityQueueBase C R → HeapSel → PriorityQueueBase C R}
    (hop : ∀ t h, (op t h).clientMap = t.clientMap ∧ (op t h).allowLimitBreak = t.allowLimitBreak) :
    SubCounters s (s.forHeaps hs op) := by
  have : ((hs.foldl op s).clientMap, (hs.foldl op s).allowLimitBreak) =
      (s.clientMap, s.allowLimitBreak) :=
    foldl_keeps s (fun t => (t.clientMap, t.allowLimitBreak)) hs fun t h => by simp [hop t h]
  simp only [Prod.mk.injEq] at this
  exact subCounters_of_clientMap this.1 this.2

theorem subCounters_adjustClass (cls : ClientType) (c : C) : SubCounters s (s.adjustClass cls c) :=
  subCounters_forHeaps _ fun _ _ => ⟨rfl, rfl⟩

theorem subCounters_deleteFromHeaps (r : ClientRec C R) : SubCounters s (s.deleteFromHeaps r) :=
  subCounters_forHeaps _ fun _ _ => ⟨rfl, rfl⟩

theorem subCounters_modifyClient {x : C} {f : ClientRec C R → ClientRec C R}
    (hf : ∀ r, r.client = x → (f r).client = x)
    (hk : ∀ r, s.findClient x = some r → (f r).counters = r.counters) :
    SubCounters s (s.modifyClient x f) := by
  refine ⟨rfl, fun c r' h => ?_⟩
  rw [findClient_modifyClient s hf] at h
  split at h
  · subst c
    obtain ⟨r, hr, rfl⟩ := Option.map_eq_some'.mp h
    exact ⟨r, hr, hk r hr⟩
  · exact ⟨r', h, rfl⟩

theorem findClient_of_map {g : ClientRec C R → ClientRec C R}
    (hm : t.clientMap = s.clientMap.map g) (hg : ∀ r, (g r).client = r.client) (c : C) :
    t.findClient c = (s.findClient c).map g := by
  simp only [findClient, hm, List.find?_map]
  congr 2
  funext r
  simp [hg]

theorem subCounters_of_map {g : ClientRec C R → ClientRec C R}
    (hm : t.clientMap = s.clientMap.map g) (hg : ∀ r, (g r).client = r.client)
    (hk : ∀ r, (g r).counters = r.counters) (ha : t.allowLimitBreak = s.allowLimitBreak) :
    SubCounters s t := by
  refine ⟨ha, fun c r' h => ?_⟩
  rw [findClient_of_map hm hg] at h
  obtain ⟨r, hr, rfl⟩ := Option.map_eq_some'.mp h
  exact ⟨r, hr, hk r⟩

theorem subCounters_addTotalWgtAndUpdateClientRes (w : ℚ) :
    SubCounters s (s.addTotalWgtAndUpdateClientRes w) :=
  subCounters_of_map rfl (fun _ => rfl) (fun _ => rfl) rfl

theorem subCounters_setCompensated (c : C) (i : ClientInfo) :
    SubCounters s (s.setCompensated c i) :=
  subCounters_of_clientMap rfl rfl

theorem subCounters_eraseClient (c₀ : C) : SubCounters s (s.eraseClient c₀) := by
  refine ⟨rfl, fun c r' h => ?_⟩
  rw [findClient_eraseClient] at h
  split at h
  · cases h
  · exact ⟨r', h, rfl⟩

theorem subCounters_realignIdle (c : C) (time : ℚ) : SubCounters s (s.realignIdle c time) := by
  unfold realignIdle
  split
  · split
    · exact subCounters_modifyClient (fun _ h => h) fun _ _ => rfl
    · exact .rfl
  · exact .rfl

theorem subCounters_queueRequest {client r₀ : ClientRec C R}
    (hc : s.findClient client.client = some r₀) (hk : client.counters = r₀.counters)
    (tag : RequestTag) (request : R) (p : ReqParams) :
    SubCounters s (s.queueRequest client tag request p) := by
  unfold queueRequest
  dsimp only
  have h₁ : SubCounters s (s.modifyClient client.client
      fun _ => client.addRequest tag client.client request) :=
    subCounters_modifyClient (fun _ _ => rfl) fun r hr => by rw [hc] at hr; cases hr; exact hk
  refine .trans ?_ (subCounters_adjustClass _ _)
  refine .trans ?_ (subCounters_modifyClient (fun _ h => h) fun _ _ => rfl)
  split
  · exact h₁.trans (subCounters_adjustClass _ _)
  · exact h₁

theorem removeByClient_subCounters (c₀ : C) (rev : Bool) :
    SubCounters s (s.removeByClient c₀ rev).1 := by
  unfold removeByClient
  split
  · exact .rfl
  · dsimp only
    have h₁ := (subCounters_modifyClient (s := s) (x := c₀)
      (f := fun r => { r with requests := [] }) (fun _ h => h) fun _ _ => rfl).trans
        (subCounters_adjustClass ‹ClientRec C R›.info.clientType c₀)
    split
    · exact h₁.trans (subCounters_addTotalWgtAndUpdateClientRes _)
    · exact h₁

theorem filterClient_subCounters (f : List R → R → Bool) (vb : Bool)
    (acc : Bool × (List R × List (C × R))) (c₀ : C) :
    SubCounters s (s.filterClient f vb acc c₀).1 := by
  unfold filterClient
  split
  · exact .rfl
  · rename_i client hclient
    dsimp only
    have hk : (client.removeByReqFilter (accumFilter f c₀) acc.2 vb).1.counters = client.counters :=
      rfl
    have hcl : (client.removeByReqFilter (accumFilter f c₀) acc.2 vb).1.client = client.client :=
      rfl
    generalize client.removeByReqFilter (accumFilter f c₀) acc.2 vb = res at hk hcl
    have h₁ : SubCounters s (s.modifyClient c₀ fun _ => res.1) :=
      subCounters_modifyClient (fun _ _ => hcl.trans (findClient_client s hclient))
        fun r hr => by rw [hclient] at hr; cases hr; exact hk
    split
    · exact h₁.trans (subCounters_adjustClass _ _)
    · exact h₁

theorem removeByReqFilter_subCounters (f : List R → R → Bool) (vb : Bool) :
    SubCounters s (s.removeByReqFilter f vb).1 :=
  List.foldlRecOn (motive := fun acc => SubCounters s acc.1) _ _ _ .rfl
    fun (acc : PriorityQueueBase C R × Bool × (List R × List (C × R))) h c _ =>
      h.trans (filterClient_subCounters f vb acc.2 c)

theorem updateClientInfo_subCounters (infoF : C → ClientInfo) (c₀ : C) :
    SubCounters s (s.updateClientInfo infoF c₀) := by
  unfold updateClientInfo
  split
  · exact .rfl
  · dsimp only
    have h₁ : SubCounters s (s.modifyClient c₀ fun r => { r with info := infoF c₀ }) :=
      subCounters_modifyClient (fun _ h => h) fun _ _ => rfl
    split
    · exact h₁.trans (subCounters_addTotalWgtAndUpdateClientRes _)
    · exact h₁

theorem updateClientInfos_subCounters (infoF : C → ClientInfo) :
    SubCounters s (s.updateClientInfos infoF) :=
  subCounters_of_map rfl (fun _ => rfl) (fun _ => rfl) rfl

theorem cleanClient_subCounters (e i : ℕ) (c₀ : C) : SubCounters s (s.cleanClient e i c₀) := by
  unfold cleanClient
  split
  · exact .rfl
  · rename_i r hr
    have herase := (subCounters_deleteFromHeaps (s := s) r).trans (subCounters_eraseClient c₀)
    split
    · dsimp only
      split
      · exact herase
      · split
        · exact herase.trans (subCounters_addTotalWgtAndUpdateClientRes _)
        · exact herase
    · split
      · exact subCounters_modifyClient (fun _ h => h) fun _ _ => rfl
      · exact .rfl

theorem doClean_subCounters {now : ℚ} (h : s.doClean now = .ok t) : SubCounters s t := by
  unfold doClean at h
  obtain ⟨⟨pts, ep⟩, -, h⟩ := except_bind_eq_ok.mp h
  cases h
  have h₀ : SubCounters s { s with cleanMarkPoints := pts } := subCounters_of_clientMap rfl rfl
  split
  · exact List.foldlRecOn (motive := SubCounters s) _ _ _ h₀
      fun _ ht c _ => ht.trans (cleanClient_subCounters _ _ c)
  · exact h₀

/-! ### The roll-over -/

theorem subCounters_moveToAnotherHeap (c : C) (info : ClientInfo) :
    SubCounters s (s.moveToAnotherHeap c info) := by
  unfold moveToAnotherHeap
  split
  · exact .rfl
  · rename_i client _
    dsimp only
    refine SubCounters.trans ?_ (subCounters_forHeaps _ fun _ _ => ⟨rfl, rfl⟩)
    refine SubCounters.trans ?_ (subCounters_forHeaps _ fun _ _ => ⟨rfl, rfl⟩)
    refine (subCounters_deleteFromHeaps client).trans ?_
    split
    · exact subCounters_modifyClient (fun r h => by split <;> exact h) fun r _ => by split <;> rfl
    · exact .rfl

theorem subCounters_installInfo (c : C) (old temp : ClientInfo) :
    SubCounters s (s.installInfo c old temp) := by
  unfold installInfo
  split
  · have hmove : SubCounters s
        (if temp.clientType ≠ old.clientType then s.moveToAnotherHeap c temp else s) := by
      split
      · exact subCounters_moveToAnotherHeap c temp
      · exact .rfl
    have hinfo := hmove.trans (subCounters_modifyClient (x := c)
      (f := fun r => { r with info := temp }) (fun _ h => h) fun _ _ => rfl)
    dsimp only
    split
    · exact hinfo.trans (subCounters_addTotalWgtAndUpdateClientRes _)
    · exact hinfo
  · exact .rfl

theorem subCounters_checkCompensation (c : C) : SubCounters s (s.checkCompensation c) := by
  unfold checkCompensation compensate
  split
  · split
    · split
      · exact .rfl
      · dsimp only
        refine .trans ?_ (subCounters_setCompensated _ _)
        exact subCounters_modifyClient (fun _ h => h) fun _ _ => rfl
    · exact .rfl
  · exact .rfl

/-- The roll-over of one client zeroes its counters and changes no other. -/
theorem rollClient_counters (infoF : C → ClientInfo) (c₀ : C) :
    (s.rollClient infoF c₀).allowLimitBreak = s.allowLimitBreak ∧
      ∀ c r', (s.rollClient infoF c₀).findClient c = some r' →
        ∃ r, s.findClient c = some r ∧ r'.counters = if c = c₀ then (0, 0) else r.counters := by
  unfold rollClient
  split
  · rename_i hc
    refine ⟨rfl, fun c r' h => ⟨r', h, ?_⟩⟩
    rw [if_neg]
    rintro rfl
    rw [hc] at h
    cases h
  · rename_i client _
    have h₁ := (subCounters_installInfo (s := s) c₀ client.info (infoF c₀)).trans
      (subCounters_checkCompensation c₀)
    refine ⟨h₁.1, fun c r' h => ?_⟩
    rw [findClient_modifyClient _ (f := ClientRec.resetCounters) fun _ h => h] at h
    split at h
    · subst c
      obtain ⟨r₁, hr₁, rfl⟩ := Option.map_eq_some'.mp h
      obtain ⟨r, hr, -⟩ := h₁.2 _ r₁ hr₁
      exact ⟨r, hr, by rw [if_pos rfl]; rfl⟩
    · obtain ⟨r, hr, e⟩ := h₁.2 c r' h
      exact ⟨r, hr, by rw [if_neg ‹_›, e]⟩

theorem foldl_rollClient_counters (infoF : C → ClientInfo) :
    ∀ (l : List C) (t : PriorityQueueBase C R),
      (l.foldl (fun s c => s.rollClient infoF c) t).allowLimitBreak = t.allowLimitBreak ∧
      ∀ c r', (l.foldl (fun s c => s.rollClient infoF c) t).findClient c = some r' →
        ∃ r, t.findClient c = some r ∧ r'.counters = if c ∈ l then (0, 0) else r.counters
  | [], t => ⟨rfl, fun _ r' h => ⟨r', h, by simp⟩⟩
  | c₀ :: l, t => by
    obtain ⟨ha₁, h₁⟩ := rollClient_counters (s := t) infoF c₀
    obtain ⟨ha₂, h₂⟩ := foldl_rollClient_counters infoF l (t.rollClient infoF c₀)
    refine ⟨ha₂.trans ha₁, fun c r'' h => ?_⟩
    obtain ⟨r', hr', e'⟩ := h₂ c r'' h
    obtain ⟨r, hr, e⟩ := h₁ c r' hr'
    refine ⟨r, hr, ?_⟩
    rw [e', e]
    by_cases hl : c ∈ l <;> by_cases hc : c = c₀ <;> simp [hl, hc]

/-- The roll-over zeroes the budget counters of every client. -/
theorem windowRollover_counters (infoF : C → ClientInfo) (now : ℚ) :
    (s.windowRollover infoF now).allowLimitBreak = s.allowLimitBreak ∧
      ∀ c r', (s.windowRollover infoF now).findClient c = some r' → r'.counters = (0, 0) := by
  obtain ⟨ha, h⟩ := foldl_rollClient_counters (R := R) infoF (s.clientMap.map (·.client))
    { s with winStart := max (s.winStart + s.winSize) now }
  refine ⟨ha, fun c r' hr' => ?_⟩
  obtain ⟨r, hr, e⟩ := h c r' hr'
  rwa [if_pos (List.mem_map.mpr ⟨r, findClient_mem _ hr, findClient_client _ hr⟩)] at e

/-! ### Operations that may create the client -/

/-- What an operation other than a dispatch does to the budget counters: `allow_limit_break` as it
was, and every client in the map after it with the counters it had, or new with both at 0. -/
structure KeepsCounters (s t : PriorityQueueBase C R) : Prop where
  allowLimitBreak : t.allowLimitBreak = s.allowLimitBreak
  counters : ∀ c r', t.findClient c = some r' →
    (∃ r, s.findClient c = some r ∧ r'.counters = r.counters) ∨
      (s.findClient c = none ∧ r'.counters = (0, 0))

theorem SubCounters.keepsCounters (h : SubCounters s t) : KeepsCounters s t :=
  ⟨h.1, fun c r' hr' => .inl (h.2 c r' hr')⟩

theorem KeepsCounters.trans_sub (h₁ : KeepsCounters s t) (h₂ : SubCounters t u) :
    KeepsCounters s u := by
  refine ⟨h₂.1.trans h₁.1, fun c r'' h => ?_⟩
  obtain ⟨r', hr', e'⟩ := h₂.2 c r'' h
  rcases h₁.2 c r' hr' with ⟨r, hr, e⟩ | ⟨hn, e⟩
  · exact .inl ⟨r, hr, e'.trans e⟩
  · exact .inr ⟨hn, e'.trans e⟩

theorem KeepsCounters.of_clientMap (h : KeepsCounters t u) (hm : t.clientMap = s.clientMap)
    (ha : t.allowLimitBreak = s.allowLimitBreak) : KeepsCounters s u := by
  have hf : ∀ c, t.findClient c = s.findClient c := fun c => by rw [findClient, hm]; rfl
  exact ⟨h.1.trans ha, fun c r' hr' => by simpa only [hf] using h.2 c r' hr'⟩

theorem keepsCounters_createClient {c₀ : C} (hc : s.findClient c₀ = none) (i : ClientInfo) :
    KeepsCounters s (s.createClient i c₀) := by
  unfold createClient
  generalize hX : s.forHeaps (HeapSel.ofClass i.clientType) (fun s h => s.heapPush h c₀) = X
  have hm : X.clientMap = s.clientMap := hX ▸ foldl_keeps s (·.clientMap) _ fun _ _ => rfl
  have hXs : SubCounters s X := hX ▸ subCounters_forHeaps _ fun _ _ => ⟨rfl, rfl⟩
  have hcX : X.findClient c₀ = none := by rwa [findClient, hm]
  have hins : KeepsCounters s ((X.insertClient (ClientRec.init c₀ i X.tick)).setCompensated c₀
      ⟨i.reservation, i.weight, i.limit, i.clientType⟩) := by
    refine ⟨hXs.1, fun c r' h => ?_⟩
    change (X.insertClient (ClientRec.init c₀ i X.tick)).findClient c = some r' at h
    by_cases hcc : c₀ = c
    · subst hcc
      rw [findClient_insertClient_self (c := c₀) _ rfl hcX] at h
      cases h
      exact .inr ⟨hc, rfl⟩
    · rw [findClient_insertClient_ne _ hcc] at h
      exact .inl (hXs.2 c r' h)
  dsimp only
  split
  · exact hins.trans_sub (subCounters_addTotalWgtAndUpdateClientRes _)
  · exact hins

theorem doAddRequest_keepsCounters {infoF : C → ClientInfo} {req : R} {c₀ : C} {p : ReqParams}
    {time : ℚ} (h : s.doAddRequest infoF req c₀ p time = .ok t) : KeepsCounters s t := by
  have hadmit : KeepsCounters s (s.admitClient infoF c₀ time) := by
    unfold admitClient
    dsimp only
    refine KeepsCounters.trans_sub ?_ (subCounters_realignIdle c₀ time)
    split
    · exact SubCounters.keepsCounters (subCounters_of_clientMap rfl rfl)
    · exact (keepsCounters_createClient (Option.not_isSome_iff_eq_none.mp ‹_›) _).of_clientMap
        rfl rfl
  unfold doAddRequest at h
  dsimp only at h
  split at h
  · cases h
  · rename_i client hclient
    obtain ⟨⟨client', tag⟩, htag, rfl⟩ := except_map_eq_ok.mp h
    have hfst : client'.client = client.client ∧ client'.counters = client.counters := by
      rcases newRequestTag_fst htag with e | ⟨_, e⟩ <;> dsimp only at e <;> subst e <;>
        exact ⟨rfl, rfl⟩
    refine hadmit.trans_sub (subCounters_queueRequest ?_ hfst.2 _ _ _)
    rw [hfst.1, findClient_client _ hclient]
    exact hclient

end Counters

/-! ## Dispatches -/

section Dispatch

variable (s) in
/-- `do_next_request(now)` rolls the window over: the heaps it checks are not all empty and a
whole window has passed since its start. -/
def RollsOver (now : ℚ) : Prop :=
  ¬ ((s.heaps .resv).isEmpty ∧ (s.heaps .burst).isEmpty ∧ (s.heaps .best).isEmpty) ∧
    now - s.winStart ≥ s.winSize

variable (s) in
instance (now : ℚ) : Decidable (s.RollsOver now) :=
  inferInstanceAs (Decidable (¬ (_ ∧ _ ∧ _) ∧ _))

variable (s) in
/-- The dispatch `do_next_request(now)` decides on: the heap id it returns, with the client at the
top of the heap that `pull_request` then pops. -/
def dispatchOf (infoF : C → ClientInfo) (now : ℚ) : Option (HeapId × C) :=
  match s.doNextRequest infoF now with
  | .ok (.returning hid, t) => (hid.popHeap.bind t.heapTop).map (Prod.mk hid)
  | _ => none

variable {v w : PriorityQueueBase C R}

/-- A move of a dispatch that changes no budget: the window size and `allow_limit_break` as they
were, and every client's record with the budget view it had. -/
structure SameBudget (s t : PriorityQueueBase C R) : Prop where
  winSize : t.winSize = s.winSize
  allowLimitBreak : t.allowLimitBreak = s.allowLimitBreak
  views : ∀ c, (t.findClient c).map ClientRec.budgetView = (s.findClient c).map ClientRec.budgetView

@[simp] theorem winSize_modifyClient (c : C) (f : ClientRec C R → ClientRec C R) :
    (s.modifyClient c f).winSize = s.winSize := rfl

theorem SameBudget.rfl : SameBudget s s := ⟨Eq.refl _, Eq.refl _, fun _ => Eq.refl _⟩

theorem SameBudget.trans (h₁ : SameBudget s t) (h₂ : SameBudget t u) : SameBudget s u :=
  ⟨h₂.1.trans h₁.1, h₂.2.trans h₁.2, fun c => (h₂.3 c).trans (h₁.3 c)⟩

theorem sameBudget_of_clientMap (hm : t.clientMap = s.clientMap) (hw : t.winSize = s.winSize)
    (ha : t.allowLimitBreak = s.allowLimitBreak) : SameBudget s t :=
  ⟨hw, ha, fun c => by rw [findClient, hm]; rfl⟩

theorem sameBudget_modifyClient {x : C} {f : ClientRec C R → ClientRec C R}
    (hf : ∀ r, r.client = x → (f r).client = x)
    (hv : ∀ r, s.findClient x = some r → (f r).budgetView = r.budgetView) :
    SameBudget s (s.modifyClient x f) := by
  refine ⟨rfl, rfl, fun c => ?_⟩
  rw [findClient_modifyClient s hf]
  split
  · subst c
    cases hr : s.findClient x with
    | none => rfl
    | some r => simp [hv r hr]
  · rfl

/-- What the budget rules read of a client's record is the same on both sides. -/
theorem SameBudget.map_entry (h : SameBudget s t) (c : C) (ρ : BudgetRule) {α : Type}
    (g : ℕ → Option Dbl → α) :
    (t.findClient c).map (fun r => g (ρ.counter r) (ρ.budget t.winSize r)) =
      (s.findClient c).map (fun r => g (ρ.counter r) (ρ.budget s.winSize r)) := by
  have hv := h.views c
  rw [h.winSize]
  cases hs : s.findClient c <;> cases ht : t.findClient c <;>
    simp only [hs, ht, Option.map_none', Option.map_some', Option.some.injEq, reduceCtorEq]
      at hv ⊢
  rw [ρ.counter_congr (congrArg Prod.fst hv), ρ.budget_congr _ hv]

theorem sameBudget_walkRound (lh ph : HeapSel) (x : C) (q : ClientReq C R) :
    SameBudget s (s.walkRound lh ph x q) :=
  (sameBudget_modifyClient (x := x) (f := (·.setHeadTag { q.tag with ready := true }))
    (fun _ h => h) fun _ _ => rfl).trans (sameBudget_of_clientMap rfl rfl rfl)

theorem promoteWalk_sameBudget (lh ph : HeapSel) (now : ℚ) :
    SameBudget s (s.promoteWalk lh ph now) :=
  promoteWalkLoop_induction (P := SameBudget s)
    (fun _ _ _ _ _ _ _ ht => ht.trans (sameBudget_walkRound _ _ _ _)) _ s .rfl

theorem budgetView_tagNewHead {top top' : ClientRec C R} {tag : RequestTag}
    (h : s.tagNewHead top tag = .ok top') : top'.budgetView = top.budgetView := by
  unfold tagNewHead at h
  split at h
  · cases h; rfl
  · obtain ⟨info, -, h⟩ := except_bind_eq_ok.mp h
    obtain ⟨t, -, h⟩ := except_bind_eq_ok.mp h
    cases h; rfl

theorem reduceReservationTags_sameBudget {r : ClientRec C R}
    (h : s.reduceReservationTags r = .ok t) : SameBudget s t := by
  unfold reduceReservationTags at h
  generalize (if r.info.clientType = .R then s.compensated r.client else some r.info) = i at h
  cases i with
  | none => cases h
  | some info =>
    cases h
    exact (sameBudget_modifyClient (f := (·.reduceReservation info.reservationInv))
      (fun r h => (ClientRec.reduceReservation_view r _).1.trans h)
      fun r _ => (ClientRec.reduceReservation_view r _).2).trans
        (sameBudget_of_clientMap rfl rfl rfl)

theorem repairHeaps_sameBudget {top : ClientRec C R} {cls : ClientType} {isDelta : Bool}
    (h : s.repairHeaps top cls isDelta = .ok t) : SameBudget s t := by
  unfold repairHeaps at h
  split at h
  · obtain ⟨t', ht, rfl⟩ := except_map_eq_ok.mp h
    have hst : SameBudget s t' := by
      split at ht
      · exact reduceReservationTags_sameBudget ht
      · cases ht; exact .rfl
    exact hst.trans (sameBudget_of_clientMap rfl rfl rfl)
  all_goals cases h; exact sameBudget_of_clientMap rfl rfl rfl

/-- Popping a request changes no budget. -/
theorem popProcessRequest_sameBudget {hs : HeapSel} {isDelta : Bool} {res : C × R}
    (h : s.popProcessRequest hs isDelta = .ok (res, t)) : SameBudget s t := by
  unfold popProcessRequest at h
  split at h
  · cases h
  rename_i top htop
  split at h
  · cases h
  obtain ⟨top', htag, h⟩ := except_bind_eq_ok.mp h
  obtain ⟨i, -, h⟩ := except_bind_eq_ok.mp h
  obtain ⟨t', hrep, h⟩ := except_bind_eq_ok.mp h
  cases h
  have hcl : top'.client = top.client := congrArg Prod.fst (tagNewHead_core htag)
  exact (sameBudget_modifyClient (f := fun _ => top') (fun _ _ => hcl) fun r hr => by
    rw [topRec_findClient s htop] at hr
    cases hr
    exact (budgetView_tagNewHead htag).trans rfl).trans (repairHeaps_sameBudget hrep)

/-- What a dispatch from `v`, the state the ladder starts from, leaves of client `c`'s ρ counter
and budget in `t`: the budget as the check read it, and the counter bumped when the dispatch
serves `c` by ρ, which it does only after `c` passed ρ's check in `v`. -/
structure DispatchEffect (c : C) (ρ : BudgetRule) (v t : PriorityQueueBase C R) (served : Bool) :
    Prop where
  allowLimitBreak : t.allowLimitBreak = v.allowLimitBreak
  entry : (t.findClient c).map (fun r => (ρ.counter r, ρ.budget t.winSize r)) =
    (v.findClient c).map fun r =>
      (if served then bump (ρ.counter r) else ρ.counter r, ρ.budget v.winSize r)
  check : served = true → ∃ r, v.findClient c = some r ∧ ρ.check v.winSize r = true

variable {c : C} {ρ : BudgetRule} {b : Bool}

theorem DispatchEffect.trans_sameBudget (h : DispatchEffect c ρ v t b) (h' : SameBudget t u) :
    DispatchEffect c ρ v u b :=
  ⟨h'.allowLimitBreak.trans h.allowLimitBreak, (h'.map_entry c ρ Prod.mk).trans h.entry,
    h.check⟩

theorem SameBudget.trans_dispatchEffect (h' : SameBudget v w) (h : DispatchEffect c ρ w t b) :
    DispatchEffect c ρ v t b := by
  refine ⟨h.allowLimitBreak.trans h'.allowLimitBreak,
    h.entry.trans (h'.map_entry c ρ fun k d => (if b then bump k else k, d)), fun hb => ?_⟩
  obtain ⟨r, hr, hck⟩ := h.check hb
  have e := h'.map_entry c ρ Dbl.natLt
  rw [hr] at e
  obtain ⟨r', hr', e'⟩ := Option.map_eq_some'.mp e.symm
  exact ⟨r', hr', e'.trans hck⟩

/-- A step of the ladder that serves no client by ρ. -/
theorem dispatchEffect_of_sameBudget {n : NextReq} (hw : SameBudget v w)
    (hn : ∀ ρ₀ : BudgetRule, n ≠ .returning ρ₀.heapId) (c : C) (ρ : BudgetRule) :
    DispatchEffect c ρ v w (decide (n = .returning ρ.heapId ∧ w.heapTop ρ.heap = some c)) := by
  rw [decide_eq_false fun h => hn ρ h.1]
  exact ⟨hw.allowLimitBreak, by simpa using hw.map_entry c ρ Prod.mk,
    fun h => absurd h Bool.false_ne_true⟩

/-- Rule 3 or 5 serving the top of its heap, which passed the rule's check. -/
theorem dispatchEffect_of_rule (ρ₀ : BudgetRule) {r : ClientRec C R} (hw : SameBudget v w)
    (hr : w.readyRule ρ₀.heap (ρ₀.check w.winSize) = some r) (c : C) (ρ : BudgetRule) :
    DispatchEffect c ρ v (w.modifyClient r.client ρ₀.bumpRec)
      (decide (NextReq.returning ρ₀.heapId = .returning ρ.heapId ∧
        (w.modifyClient r.client ρ₀.bumpRec).heapTop ρ.heap = some c)) := by
  obtain ⟨htop, -, -, hck, -⟩ := readyRule_eq_some.mp hr
  obtain ⟨x, hx, hfx⟩ := Option.bind_eq_some.mp htop
  have hrc : r.client = x := findClient_client w hfx
  subst hrc
  have hserved : (NextReq.returning ρ₀.heapId = .returning ρ.heapId ∧
      (w.modifyClient r.client ρ₀.bumpRec).heapTop ρ.heap = some c) ↔ ρ = ρ₀ ∧ r.client = c := by
    change _ ∧ w.heapTop ρ.heap = some c ↔ _
    cases ρ <;> cases ρ₀ <;> simp_all [BudgetRule.heapId, BudgetRule.heap]
  rw [decide_eq_decide.mpr hserved]
  refine hw.trans_dispatchEffect ⟨rfl, ?_, fun h => ?_⟩
  · rw [findClient_modifyClient w fun _ h => (ρ₀.client_bumpRec).trans h]
    by_cases hc : c = r.client
    · subst hc
      rw [if_pos rfl, hfx]
      by_cases hρ : ρ = ρ₀ <;> simp [hρ]
    · simp [hc, Ne.symm hc]
  · obtain ⟨rfl, rfl⟩ := of_decide_eq_true h
    exact ⟨r, hfx, hck⟩

/-- **The ladder and the budgets.** With the limit-break rules off, the ladder bumps client `c`'s
ρ counter exactly when it returns ρ's heap with `c` on top, after `c` passed ρ's check, and it
changes no budget. -/
theorem dispatchLadder_effect {now : ℚ} {n : NextReq} (halb : v.allowLimitBreak = false)
    (h : v.dispatchLadder now = .ok (n, t)) (c : C) (ρ : BudgetRule) :
    DispatchEffect c ρ v t (decide (n = .returning ρ.heapId ∧ t.heapTop ρ.heap = some c)) := by
  have bump {w : PriorityQueueBase C R} (hw : SameBudget v w) (x : C)
      (f : ClientRec C R → ClientRec C R) (hf : ∀ r, (f r).budgetView = r.budgetView)
      (hc : ∀ r, (f r).client = r.client) : SameBudget v (w.modifyClient x f) :=
    hw.trans (sameBudget_modifyClient (fun r h => (hc r).trans h) fun r _ => hf r)
  have w1 := promoteWalk_sameBudget (s := v) .limit .burst now
  have w2 := w1.trans (promoteWalk_sameBudget .rLimit .deltar now)
  have w3 := w2.trans (promoteWalk_sameBudget .bestLimit .best now)
  unfold dispatchLadder at h
  split at h
  · cases h
    refine dispatchEffect_of_sameBudget (bump .rfl _ _ (fun _ => ?_) fun _ => ?_)
      (fun ρ₀ => ?_) c ρ
    any_goals rfl
    cases ρ₀ <;> simp [BudgetRule.heapId]
  dsimp only at h
  split at h
  · rename_i r hr
    cases h
    exact dispatchEffect_of_rule .burst w1 hr c ρ
  split at h
  · rename_i r hr
    cases h
    exact dispatchEffect_of_rule .deltar w2 hr c ρ
  split at h
  · cases h
    refine dispatchEffect_of_sameBudget (bump w3 _ _ (fun _ => ?_) fun _ => ?_)
      (fun ρ₀ => ?_) c ρ
    any_goals rfl
    cases ρ₀ <;> simp [BudgetRule.heapId]
  have hlb : (((v.promoteWalk .limit .burst now).promoteWalk .rLimit .deltar now).promoteWalk
      .bestLimit .best now).limitBreak = none := by
    simp [limitBreak, w3.allowLimitBreak, halb]
  rw [hlb] at h
  obtain ⟨n', hn', he⟩ := except_map_eq_ok.mp h
  cases he
  exact dispatchEffect_of_sameBudget w3 (fun _ => nextCall_ne_returning _ hn' _) c ρ

theorem dispatchOf_eq_some_iff {infoF : C → ClientInfo} {now : ℚ} {n : NextReq}
    (h : s.doNextRequest infoF now = .ok (n, t)) (c : C) (ρ : BudgetRule) :
    s.dispatchOf infoF now = some (ρ.heapId, c) ↔
      n = .returning ρ.heapId ∧ t.heapTop ρ.heap = some c := by
  unfold dispatchOf
  rw [h]
  cases n with
  | returning hid =>
    cases hid <;> cases ρ <;> simp [HeapId.popHeap, BudgetRule.heapId, BudgetRule.heap]
  | _ => simp

theorem doNextRequest_effect {infoF : C → ClientInfo} {now : ℚ} {n : NextReq}
    (hlb : s.allowLimitBreak = false) (h : s.doNextRequest infoF now = .ok (n, t)) (c : C)
    (ρ : BudgetRule) :
    DispatchEffect c ρ (if s.RollsOver now then s.windowRollover infoF now else s) t
      (decide (n = .returning ρ.heapId ∧ t.heapTop ρ.heap = some c)) := by
  unfold doNextRequest at h
  split at h
  · rename_i hempty
    cases h
    rw [if_neg fun hr => hr.1 hempty]
    exact dispatchEffect_of_sameBudget .rfl (fun _ h => by cases h) c ρ
  · rename_i hne
    dsimp only at h
    split at h
    · rw [if_pos ⟨hne, ‹_›⟩]
      exact dispatchLadder_effect ((windowRollover_counters infoF now).1.trans hlb) h c ρ
    · rename_i hroll
      rw [if_neg fun hr => hroll hr.2]
      exact dispatchLadder_effect hlb h c ρ

/-- **A poll and the budgets.** With the limit-break rules off, `pull_request(now)` bumps client
`c`'s ρ counter exactly when `do_next_request` dispatches to `c` by ρ, after `c` passed ρ's check
in the state after the roll-over (if there is one), and it leaves every budget as that check read
it. -/
theorem pullRequest_effect {infoF : C → ClientInfo} {now : ℚ} {p : PullReq C R}
    (hlb : s.allowLimitBreak = false) (h : s.pullRequest infoF now = .ok (p, t)) (c : C)
    (ρ : BudgetRule) :
    DispatchEffect c ρ (if s.RollsOver now then s.windowRollover infoF now else s) t
      (decide (s.dispatchOf infoF now = some (ρ.heapId, c))) := by
  unfold pullRequest at h
  obtain ⟨⟨n, t₁⟩, hnext, h⟩ := except_bind_eq_ok.mp h
  rw [decide_eq_decide.mpr (dispatchOf_eq_some_iff hnext c ρ)]
  have he := doNextRequest_effect hlb hnext c ρ
  cases n with
  | none => cases h; exact he
  | future w => cases h; exact he
  | returning hid =>
    cases hid <;> dsimp only at h
    all_goals first
      | cases h
      | obtain ⟨⟨⟨c₀, r⟩, s₂⟩, hpop, h⟩ := except_bind_eq_ok.mp h
        cases h
        exact he.trans_sameBudget (popProcessRequest_sameBudget hpop)

theorem popProcessRequest_heapTop {hs : HeapSel} {isDelta : Bool} {c : C} {r : R}
    (h : s.popProcessRequest hs isDelta = .ok ((c, r), t)) : s.heapTop hs = some c := by
  unfold popProcessRequest at h
  split at h
  · cases h
  rename_i top htop
  split at h
  · cases h
  obtain ⟨top', -, h⟩ := except_bind_eq_ok.mp h
  obtain ⟨i, -, h⟩ := except_bind_eq_ok.mp h
  obtain ⟨t', -, h⟩ := except_bind_eq_ok.mp h
  cases h
  obtain ⟨x, hx, hfx⟩ := Option.bind_eq_some.mp htop
  rwa [findClient_client s hfx]

/-- The client `pull_request` hands out is the one the dispatch of `do_next_request` names. -/
theorem pullRequest_returning_dispatchOf {infoF : C → ClientInfo} {now : ℚ} {c : C} {r : R}
    {ph : PhaseType} (h : s.pullRequest infoF now = .ok (.returning c r ph, t)) :
    ∃ hid, s.dispatchOf infoF now = some (hid, c) := by
  unfold pullRequest at h
  obtain ⟨⟨n, t₁⟩, hnext, h⟩ := except_bind_eq_ok.mp h
  unfold dispatchOf
  rw [hnext]
  cases n with
  | none => cases h
  | future w => cases h
  | returning hid =>
    cases hid <;> dsimp only at h
    all_goals first
      | cases h
      | obtain ⟨⟨⟨c₀, r₀⟩, s₂⟩, hpop, h⟩ := except_bind_eq_ok.mp h
        cases h
        simp [HeapId.popHeap, popProcessRequest_heapTop hpop]

end Dispatch

end PriorityQueueBase

end DmclockServer
