import DmclockServer.Frame

/-!
# Realigning an idle client

A client that `add_request` finds idle (new, or marked idle by `do_clean`) is realigned on the
active clients: its `prop_delta` becomes `m - time`, where `m` is the least effective proportion
tag (the head's proportion tag, or the previous one when the queue is empty, plus `prop_delta`)
over the clients that are not idle. The loop that finds it returns that least tag
(`lowestPropTag_eq`), and the creation of a client does not change it.

With an empty queue and no anticipation timeout, the request added becomes the head with the
proportion tag `max(time, prev + weight_inv * max(delta, 1))`, or `max_tag` for a weight of 0
(`doAddRequest_realigns_idle`). The client's effective proportion tag is then that tag plus
`m - time`: at least `time + (m - time)`, and exactly that when the client lags real time and has
a weight. Over exact rationals this is `m`; the code adds and subtracts in doubles, where
`time + (m - time)` can round below `m`, so the result is stated before the two roundings. A
client of weight 0 stays at `max_tag` however far it lags (`zero_weight_realigned_to_maxTag`).
-/

namespace DmclockServer

namespace RequestTag

/-- A field with a high extreme never falls behind `time`. -/
theorem time_le_tagCalc (time : ℚ) (prev : Dbl) (increment : ℚ) (dist : ℕ) :
    Dbl.fin time ≤ tagCalc time prev increment dist true := by
  unfold tagCalc
  split
  · exact Dbl.le_maxTag _
  · exact le_max_left _ _

/-- A field with a nonzero increment whose previous value plus the increment has not passed
`time` restarts at `time`. -/
theorem tagCalc_eq_time {time increment : ℚ} {prev : Dbl} {dist : ℕ} (hinc : increment ≠ 0)
    (hlag : prev + increment * ((max dist 1 : ℕ) : ℚ) ≤ .fin time) :
    tagCalc time prev increment dist true = .fin time := by
  have hd : (if dist ≠ 0 then increment * dist else increment) =
      increment * ((max dist 1 : ℕ) : ℚ) := by
    split
    · rw [max_eq_left (Nat.one_le_iff_ne_zero.mpr ‹_›)]
    · rename_i h
      simp [not_not.mp h]
  unfold tagCalc
  rw [if_neg hinc, hd]
  exact max_eq_left hlag

end RequestTag

namespace PriorityQueueBase

variable {C R : Type} {s s' : PriorityQueueBase C R}

/-! ## The minimum loop -/

/-- `m` is the least effective proportion tag over the clients that are not idle. -/
def IsLowestPropTag (s : PriorityQueueBase C R) (m : Dbl) : Prop :=
  (∃ r ∈ s.clientMap, r.idle = false ∧ r.effectivePropTag = m) ∧
    ∀ r ∈ s.clientMap, r.idle = false → m ≤ r.effectivePropTag

instance (s : PriorityQueueBase C R) (m : Dbl) : Decidable (s.IsLowestPropTag m) :=
  inferInstanceAs (Decidable (_ ∧ _))

theorem foldl_lowest_le (l : List (ClientRec C R)) (low : Dbl) :
    l.foldl (fun low c => if !c.idle ∧ c.effectivePropTag < low then c.effectivePropTag else low)
      low ≤ low ∧
    ∀ r ∈ l, r.idle = false → l.foldl (fun low c =>
      if !c.idle ∧ c.effectivePropTag < low then c.effectivePropTag else low) low ≤
        r.effectivePropTag := by
  induction l generalizing low with
  | nil => simp
  | cons a l ih =>
    obtain ⟨hlow, hl⟩ := ih (if !a.idle ∧ a.effectivePropTag < low then a.effectivePropTag else low)
    have hstep : (if !a.idle ∧ a.effectivePropTag < low then a.effectivePropTag else low) ≤ low := by
      split
      · rename_i h
        exact le_of_lt h.2
      · exact le_refl _
    refine ⟨hlow.trans hstep, fun r hr hi => ?_⟩
    rcases List.mem_cons.mp hr with rfl | hr
    · refine hlow.trans ?_
      split
      · exact le_refl _
      · simp_all
    · exact hl r hr hi

theorem foldl_lowest_mem (l : List (ClientRec C R)) (low : Dbl) :
    l.foldl (fun low c => if !c.idle ∧ c.effectivePropTag < low then c.effectivePropTag else low)
      low = low ∨
    ∃ r ∈ l, r.idle = false ∧ l.foldl (fun low c =>
      if !c.idle ∧ c.effectivePropTag < low then c.effectivePropTag else low) low =
        r.effectivePropTag :=
  List.foldlRecOn (motive := fun x => x = low ∨ ∃ r ∈ l, r.idle = false ∧ x = r.effectivePropTag)
    l _ low (.inl rfl) fun x hx a ha => by
      split
      · rename_i h
        exact .inr ⟨a, ha, by simpa using h.1, rfl⟩
      · exact hx

/-- The loop of the idle realignment returns the least effective proportion tag of the clients
that are not idle. -/
theorem lowestPropTag_eq {m : Dbl} (hm : s.IsLowestPropTag m) : s.lowestPropTag = m := by
  obtain ⟨⟨r, hr, hi, rfl⟩, hle⟩ := hm
  refine le_antisymm ((foldl_lowest_le _ _).2 r hr hi) ?_
  rcases foldl_lowest_mem s.clientMap .maxTag with h | ⟨r', hr', hi', h⟩
  · rw [lowestPropTag, h]
    exact Dbl.le_maxTag _
  · rw [lowestPropTag, h]
    exact hle r' hr' hi'

theorem IsLowestPropTag.of_views {m : Dbl} (hm : s.IsLowestPropTag m)
    (h₁ : ∀ r ∈ s.clientMap, ∃ r' ∈ s'.clientMap, r'.idle = r.idle ∧
      r'.effectivePropTag = r.effectivePropTag)
    (h₂ : ∀ r' ∈ s'.clientMap, r'.idle = false →
      ∃ r ∈ s.clientMap, r.idle = false ∧ r.effectivePropTag = r'.effectivePropTag) :
    s'.IsLowestPropTag m := by
  obtain ⟨⟨r, hr, hi, he⟩, hle⟩ := hm
  obtain ⟨r', hr', hi', he'⟩ := h₁ r hr
  refine ⟨⟨r', hr', hi'.trans hi, he'.trans he⟩, fun r' hr' hi' => ?_⟩
  obtain ⟨r, hr, hi, he⟩ := h₂ r' hr' hi'
  exact he ▸ hle r hr hi

/-! ## Admitting the client -/

variable [LinearOrder C]

/-- The records after a creation are those before it and the new one, each up to its `resource`
(the creation recomputes the budgets). -/
theorem createClient_records (i : ClientInfo) (c : C) :
    (∀ r' ∈ (s.createClient i c).clientMap, ∃ k, ∃ r ∈ ClientRec.init c i k :: s.clientMap,
      r' = { r with resource := r'.resource }) ∧
    (∀ r ∈ s.clientMap, ∃ r' ∈ (s.createClient i c).clientMap,
      r' = { r with resource := r'.resource }) ∧
    ∃ k, ∃ r' ∈ (s.createClient i c).clientMap,
      r' = { ClientRec.init c i k with resource := r'.resource } := by
  unfold createClient
  generalize hX : s.forHeaps (HeapSel.ofClass i.clientType) (fun s h => s.heapPush h c) = X
  have hm : X.clientMap = s.clientMap := hX ▸ foldl_keeps s (·.clientMap) _ fun _ _ => rfl
  have hL (r : ClientRec C R) : r ∈ ((X.insertClient (ClientRec.init c i X.tick)).setCompensated c
      ⟨i.reservation, i.weight, i.limit, i.clientType⟩).clientMap ↔
      r ∈ ClientRec.init c i X.tick :: s.clientMap := by
    simp [setCompensated, insertClient, List.mem_orderedInsert, hm]
  dsimp only
  split
  · refine ⟨fun r' hr' => ?_, fun r hr => ⟨_, List.mem_map_of_mem _ ((hL r).mpr (.tail _ hr)), rfl⟩,
      X.tick, _, List.mem_map_of_mem _ ((hL _).mpr (.head _)), rfl⟩
    obtain ⟨r, hr, rfl⟩ := List.mem_map.mp hr'
    exact ⟨X.tick, r, (hL r).mp hr, rfl⟩
  · exact ⟨fun r' hr' => ⟨X.tick, r', (hL r').mp hr', rfl⟩,
      fun r hr => ⟨r, (hL r).mpr (.tail _ hr), rfl⟩, X.tick, _, (hL _).mpr (.head _), rfl⟩

/-- A new client is found after its creation, as the record the creation built. -/
theorem findClient_createClient {c : C} (hc : s.findClient c = none) (i : ClientInfo) :
    ∃ r k, (s.createClient i c).findClient c = some r ∧
      r = { ClientRec.init c i k with resource := r.resource } := by
  have hne : ∀ r ∈ s.clientMap, r.client ≠ c := by simpa [findClient] using hc
  obtain ⟨hold, -, k, r', hr', e'⟩ := createClient_records (s := s) i c
  unfold findClient
  cases hf : (s.createClient i c).clientMap.find? (·.client = c) with
  | none => exact absurd (congrArg ClientRec.client e') (by simpa using List.find?_eq_none.mp hf r' hr')
  | some r =>
    have hrc : r.client = c := by simpa using List.find?_some hf
    obtain ⟨k, r₀, hr₀, e⟩ := hold r (List.mem_of_find?_eq_some hf)
    rcases List.mem_cons.mp hr₀ with rfl | hr₀
    · exact ⟨r, k, rfl, e⟩
    · exact absurd ((congrArg ClientRec.client e).symm.trans hrc) (hne r₀ hr₀)

theorem compensated_createClient (i : ClientInfo) (c : C) :
    (s.createClient i c).compensated c = some ⟨i.reservation, i.weight, i.limit, i.clientType⟩ := by
  unfold createClient
  dsimp only
  split <;> simp [compensated, setCompensated, addTotalWgtAndUpdateClientRes]

theorem compensatedClientMap_realignIdle (c : C) (t : ℚ) :
    (s.realignIdle c t).compensatedClientMap = s.compensatedClientMap := by
  unfold realignIdle
  split
  · split <;> rfl
  · rfl

theorem clientInfoWrapper_congr (h : s'.compensatedClientMap = s.compensatedClientMap) :
    s'.clientInfoWrapper = s.clientInfoWrapper := by
  funext r
  simp only [clientInfoWrapper, compensated, h]

/-- The realignment of an idle client on the least effective proportion tag `m` of the others. -/
theorem findClient_realignIdle {c : C} {r : ClientRec C R} {t m : ℚ} (hr : s.findClient c = some r)
    (hi : r.idle = true) (hm : s.IsLowestPropTag (.fin m)) :
    (s.realignIdle c t).findClient c = some { r with propDelta := m - t, idle := false } := by
  unfold realignIdle
  rw [hr]
  dsimp only
  rw [if_pos hi, lowestPropTag_eq hm]
  rw [findClient_modifyClient s (f := fun r => { r with propDelta := m - t, idle := false })
    fun _ h => h, if_pos rfl, hr]
  rfl

/-- What `do_add_request` computes the first tag of an empty queue from: the client's previous
proportion tag and the info `client_info_wrapper` gives it. A new client starts from
`RequestTag(0, 0, 0, 0)` with the callback's info. -/
def tagInputs (s : PriorityQueueBase C R) (infoF : C → ClientInfo) (c : C) :
    Except String (Dbl × ClientInfo) :=
  match s.findClient c with
  | some r => (s.clientInfoWrapper r).map ((r.prevTag.proportion, ·))
  | none => .ok (.fin 0, infoF c)

/-- The first part of `do_add_request` on an idle client with an empty queue: it is found, with
`prop_delta = m - time`, still without a request, and with the tag inputs it had before (or a new
client's). -/
theorem admitClient_realigned (infoF : C → ClientInfo) (t : ℚ) {c : C} {m : ℚ}
    (hidle : ∀ r, s.findClient c = some r → r.idle = true ∧ r.requests = [])
    (hm : s.IsLowestPropTag (.fin m)) :
    ∃ r₁, (s.admitClient infoF c t).findClient c = some r₁ ∧ r₁.propDelta = m - t ∧
      r₁.requests = [] ∧
      ((s.admitClient infoF c t).clientInfoWrapper r₁).map ((r₁.prevTag.proportion, ·)) =
        s.tagInputs infoF c := by
  unfold admitClient tagInputs
  dsimp only
  rw [clientInfoWrapper_congr (compensatedClientMap_realignIdle c t)]
  cases hf : s.findClient c with
  | some r₀ =>
    obtain ⟨hi, hq⟩ := hidle r₀ hf
    have h₁ : ({ s with tick := s.tick + 1 } : PriorityQueueBase C R).findClient c = some r₀ := hf
    rw [h₁, Option.isSome_some, if_pos rfl]
    exact ⟨_, findClient_realignIdle h₁ hi hm, rfl, hq, rfl⟩
  | none =>
    have h₁ : ({ s with tick := s.tick + 1 } : PriorityQueueBase C R).findClient c = none := hf
    rw [h₁, Option.isSome_none, if_neg Bool.false_ne_true]
    obtain ⟨r₂, k, hr₂, e₂⟩ := findClient_createClient h₁ (infoF c)
    obtain ⟨hold, hnew, -⟩ := createClient_records (s := { s with tick := s.tick + 1 }) (infoF c) c
    have hm₂ := IsLowestPropTag.of_views (s := { s with tick := s.tick + 1 }) hm
      (fun r hr => by
        obtain ⟨r', hr', e⟩ := hnew r hr
        exact ⟨r', hr', by rw [e], by rw [e]; rfl⟩)
      (fun r' hr' hi' => by
        obtain ⟨k, r, hr, e⟩ := hold r' hr'
        rw [e] at hi'
        rcases List.mem_cons.mp hr with rfl | hr
        · cases hi'
        · exact ⟨r, hr, hi', by rw [e]; rfl⟩)
    refine ⟨_, findClient_realignIdle hr₂ (congrArg ClientRec.idle e₂) hm₂, rfl,
      congrArg ClientRec.requests e₂, ?_⟩
    have hinfo : r₂.info = infoF c := congrArg ClientRec.info e₂
    have hcl : r₂.client = c := congrArg ClientRec.client e₂
    have hprev : r₂.prevTag = RequestTag.zero 0 := congrArg ClientRec.prevTag e₂
    simp only [clientInfoWrapper, hinfo, hcl, hprev, compensated_createClient]
    split <;> rfl

/-! ## The first request -/

theorem anticipationTimeout_admitClient (infoF : C → ClientInfo) (c : C) (t : ℚ) :
    (s.admitClient infoF c t).anticipationTimeout = s.anticipationTimeout := by
  have hr (u : PriorityQueueBase C R) : (u.realignIdle c t).anticipationTimeout =
      u.anticipationTimeout := by
    unfold realignIdle
    split
    · split <;> rfl
    · rfl
  unfold admitClient
  dsimp only
  rw [hr]
  split
  · rfl
  · unfold createClient
    dsimp only
    split <;> exact foldl_keeps _ (·.anticipationTimeout) _ fun _ _ => rfl

/-- `queue_request` leaves the client's record with the request appended and the distances
recorded. -/
theorem findClient_queueRequest (client : ClientRec C R) (tag : RequestTag) (request : R)
    (p : ReqParams) :
    (s.queueRequest client tag request p).findClient client.client =
      (s.findClient client.client).map fun _ =>
        { client.addRequest tag client.client request with curRho := p.rho, curDelta := p.delta } := by
  have ha (u : PriorityQueueBase C R) (cls : ClientType) (x : C) :
      (u.adjustClass cls x).findClient = u.findClient := by
    funext y; simp [findClient]
  unfold queueRequest
  dsimp only
  rw [ha, findClient_modifyClient _ (f := fun r => { r with curRho := p.rho, curDelta := p.delta })
    fun _ h => h, if_pos rfl]
  split
  all_goals
    try rw [ha]
    rw [findClient_modifyClient _ (c := client.client)
      (f := fun _ => client.addRequest tag client.client request) fun _ _ => rfl, if_pos rfl,
      Option.map_map]
    rfl

/-- A request added to an empty queue becomes the head with the tag computed from the previous tag
and the info `client_info_wrapper` gives, and the client keeps its `prop_delta`. -/
theorem doAddRequest_first_request {infoF : C → ClientInfo} {req : R} {c : C} {p : ReqParams}
    {t : ℚ} {r₁ : ClientRec C R} (hr₁ : (s.admitClient infoF c t).findClient c = some r₁)
    (hq : r₁.requests = []) (h : s.doAddRequest infoF req c p t = .ok s') :
    ∃ i T r', (s.admitClient infoF c t).clientInfoWrapper r₁ = .ok i ∧
      RequestTag.make r₁.prevTag i p.delta p.rho t s.anticipationTimeout = .ok T ∧
      s'.findClient c = some r' ∧ r'.propDelta = r₁.propDelta ∧ r'.head? = some T := by
  unfold doAddRequest at h
  dsimp only at h
  rw [hr₁] at h
  obtain ⟨⟨client', tag⟩, htag, rfl⟩ := except_map_eq_ok.mp h
  unfold newRequestTag at htag
  rw [if_neg (by simp [hq])] at htag
  obtain ⟨i, hi, htag⟩ := except_bind_eq_ok.mp htag
  obtain ⟨T, hT, he⟩ := except_map_eq_ok.mp htag
  cases he
  have hc : (r₁.updateReqTag tag (s.admitClient infoF c t).tick).client = c :=
    (findClient_client _ hr₁ : r₁.client = c)
  have hfind := findClient_queueRequest (s := s.admitClient infoF c t)
    (r₁.updateReqTag tag (s.admitClient infoF c t).tick) tag req p
  rw [hc, hr₁] at hfind
  refine ⟨i, tag, _, hi, by rwa [anticipationTimeout_admitClient] at hT, hfind, rfl, ?_⟩
  simp [ClientRec.head?, ClientRec.nextRequest, ClientRec.addRequest, ClientRec.updateReqTag, hq]

/-! ## The realigned tag -/

/-- **A re-entering client is realigned on the active clients.** Take an `add_request` of a client
that is new or idle with an empty queue, with no anticipation timeout, while the least effective
proportion tag over the clients that are not idle is a finite `m`. After the call the client's
`prop_delta` is `m - time`, and its head is the request just added, with a proportion tag `T` of
at least `time`: its effective proportion tag is `T + (m - time)`. The tag is exactly `time` when
the info it is computed from has a weight and the client lags real time: its previous proportion
tag plus `weight_inv * max(delta, 1)` has not passed `time`. -/
theorem doAddRequest_realigns_idle {infoF : C → ClientInfo} {req : R} {c : C} {p : ReqParams}
    {t m : ℚ} (hat : s.anticipationTimeout = 0)
    (hidle : ∀ r, s.findClient c = some r → r.idle = true ∧ r.requests = [])
    (hm : s.IsLowestPropTag (.fin m)) (h : s.doAddRequest infoF req c p t = .ok s') :
    ∃ r' T, s'.findClient c = some r' ∧ r'.propDelta = m - t ∧ r'.head? = some T ∧
      r'.effectivePropTag = T.proportion + (m - t) ∧ Dbl.fin t ≤ T.proportion ∧
      ∀ prev i, s.tagInputs infoF c = .ok (prev, i) → i.weight ≠ 0 →
        prev + i.weightInv * ((max p.delta 1 : ℕ) : ℚ) ≤ .fin t → T.proportion = .fin t := by
  obtain ⟨r₁, hr₁, hpd, hq, hin⟩ := admitClient_realigned infoF t hidle hm
  obtain ⟨i, T, r', hi, hT, hr', hpd', hhead⟩ := doAddRequest_first_request hr₁ hq h
  have hprop : T.proportion =
      RequestTag.tagCalc t r₁.prevTag.proportion i.weightInv p.delta true := by
    rw [RequestTag.make_eq_ok hT, hat]
    simp [RequestTag.build]
  refine ⟨r', T, hr', hpd'.trans hpd, hhead, ?_, hprop ▸ RequestTag.time_le_tagCalc _ _ _ _,
    fun prev i' hinputs hw hlag => ?_⟩
  · simp only [ClientRec.head?, Option.map_eq_some'] at hhead
    obtain ⟨q, hq', rfl⟩ := hhead
    simp [ClientRec.effectivePropTag, hq', hpd', hpd]
  · rw [← hin, hi] at hinputs
    injection hinputs with hpair
    cases hpair
    have hinc : i.weightInv ≠ 0 := ClientInfo.inv_eq_zero.not.mpr hw
    rw [hprop, RequestTag.tagCalc_eq_time hinc hlag]

section Runs

attribute [local semireducible] Rat.add Rat.mul Rat.inv Rat.sub

/-- Client 1 (weight 1) is active with effective proportion tag 1 when client 2, new, with
weight 1, adds a request at time 5: its `prop_delta` is 1 - 5, and as it lags real time
(0 + 1 * 1 <= 5) its head's proportion tag is 5. -/
theorem doAddRequest_realigns_idle_at_five :
    ∃ s₀ s₁ s₂ : PriorityQueueBase ℕ ℕ, init 2 600 900 360 false 0 10 1 = .ok s₀ ∧
      s₀.doAddRequest (fun _ => ⟨0, 1, 0, .B⟩) 100 1 {} 0 = .ok s₁ ∧
      s₁.doAddRequest (fun _ => ⟨0, 1, 0, .B⟩) 200 2 {} 5 = .ok s₂ ∧
      s₁.IsLowestPropTag (.fin 1) ∧
      ∃ r' T, s₂.findClient 2 = some r' ∧ r'.propDelta = 1 - 5 ∧ r'.head? = some T ∧
        r'.effectivePropTag = T.proportion + (1 - 5 : ℚ) ∧ Dbl.fin 5 ≤ T.proportion ∧
        ∀ prev i, s₁.tagInputs (fun _ => ⟨0, 1, 0, .B⟩) 2 = .ok (prev, i) → i.weight ≠ 0 →
          prev + i.weightInv * ((max 1 1 : ℕ) : ℚ) ≤ .fin 5 → T.proportion = .fin 5 := by
  refine ⟨_, _, ?_, rfl, rfl, ?h, by decide, @doAddRequest_realigns_idle ℕ ℕ _ _ _
    (fun _ => ⟨0, 1, 0, .B⟩) 200 2 {} 5 1 rfl (fun r hr => ?n) (by decide) ?h⟩
  case h => exact rfl
  case n => exact nomatch hr

/-- Client 1 (class B, weight 1) is active with effective proportion tag 1 when client 2, new, of
class R with weight 0, adds a request at time 5. Client 2 lags real time (0 + 0 * 1 <= 5), but
with a weight of 0 its proportion tag is `max_tag`, and so is its effective tag, not 1. -/
theorem zero_weight_realigned_to_maxTag :
    ∃ s₀ s₁ s₂ : PriorityQueueBase ℕ ℕ, init 2 600 900 360 false 0 10 1 = .ok s₀ ∧
      s₀.doAddRequest (fun c => if c = 1 then ⟨0, 1, 0, .B⟩ else ⟨1, 0, 0, .R⟩) 100 1 {} 0 =
        .ok s₁ ∧
      s₁.anticipationTimeout = 0 ∧ s₁.findClient 2 = none ∧ s₁.IsLowestPropTag (.fin 1) ∧
      s₁.tagInputs (fun c => if c = 1 then ⟨0, 1, 0, .B⟩ else ⟨1, 0, 0, .R⟩) 2 =
        .ok (.fin 0, ⟨1, 0, 0, .R⟩) ∧
      s₁.doAddRequest (fun c => if c = 1 then ⟨0, 1, 0, .B⟩ else ⟨1, 0, 0, .R⟩) 200 2 {} 5 =
        .ok s₂ ∧
      (s₂.findClient 2).map (·.effectivePropTag) = some .maxTag :=
  ⟨_, _, _, rfl, rfl, rfl, rfl, by decide, rfl, rfl, rfl⟩

end Runs

end PriorityQueueBase

end DmclockServer
