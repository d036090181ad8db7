import DmclockServer.Walk

/-!
# The dispatch ladder

What `do_next_request` decides after its roll-over.

* `dispatchLadder_spec`: on a state where every client is in exactly the heaps of its class and
  every heap has the heap property, with `allow_limit_break` off, rule 1 serves exactly when an R
  client's head has passed its reservation tag, rule 7 exactly when an A or O client's head is due,
  and each rule serves the top of its heap, with the least key among the clients it may serve.
  Rules 3 and 5 check the budget of their top only, so a client out of budget at the top blocks
  the other eligible clients of its class (`budget_top_blocks_eligible_client`). The proof rests on
  what one rule decides after its walk, over the records the roll-over left (`walkedRule_spec`).
* `nextCall_eq_error_iff`: the next-call computation (rule 9) fails exactly when the top of
  `r_limit_heap` or of `limit_heap` has a ready head with a finite proportion tag, the case its
  two assertions exclude. Rules 3 and 5 refuse such a top when its client is out of budget, and
  `budget_refusal_fails_assertion` is a run that then fails the assertion.
* `nextCall_setHeap_bestLimit`: the next call does not read `best_limit_heap`, so an A/O client
  waiting for its limit tag gets no wake-up time (`none_then_returning`). The limit tag it takes
  from a ready top of `r_limit_heap` may have passed already (`pull_future_before_now`).
* `stale_burst_heap_starves_client`: without the invariants the ladder's choice is not fair: a
  class change that leaves clients in the heaps of their old class breaks the heap property of
  `burst_heap`, and one client is served four times while another of the same weight waits.
-/

namespace DmclockServer

namespace PriorityQueueBase

variable {C R : Type} [LinearOrder C] (s : PriorityQueueBase C R)

attribute [local semireducible] Rat.add Rat.mul Rat.inv Rat.sub

/-! ## The tops of the heaps -/

section Tops

variable {s}

/-- Under the invariants, a heap of a client's class has a top whose key is at most the
client's. -/
theorem top_le_of_member (hi : s.LadderInv) {h : HeapSel} {c : C} {r : ClientRec C R}
    (hr : s.findClient c = some r) (hc : h ∈ HeapSel.ofClass r.info.clientType) :
    ∃ c₀ r₀, s.heapTop h = some c₀ ∧ s.findClient c₀ = some r₀ ∧ s.topRec h = some r₀ ∧
      h ∈ HeapSel.ofClass r₀.info.clientType ∧
      compareKey h.tagField h.readyOpt h.usePropDelta r₀ ≤
        compareKey h.tagField h.readyOpt h.usePropDelta r := by
  have hmem := (hi.classMembership.mem_heaps_iff hr h).mpr hc
  cases hl : s.heaps h with
  | nil => simp [hl] at hmem
  | cons c₀ l =>
    have hc₀ : c₀ ∈ s.heaps h := hl ▸ List.mem_cons_self c₀ l
    obtain ⟨r₀, hr₀⟩ := hi.classMembership.findClient_of_mem hc₀
    have htop : s.heapTop h = some c₀ := by simp [heapTop, hl]
    refine ⟨c₀, r₀, htop, hr₀, by simp [topRec, htop, hr₀],
      (hi.classMembership.mem_heaps_iff hr₀ h).mp hc₀, ?_⟩
    have := (hi.heapsOrdered h).top_le (show IndIntruHeap.top (s.heaps h) = some c₀ by
      simp [IndIntruHeap.top, hl]) hmem
    rwa [heapKey_of_findClient hr₀, heapKey_of_findClient hr] at this

/-- Rule 3, 5 or 7 serves exactly a top whose head is ready, with a finite proportion tag, within
its budget. -/
theorem readyRule_eq_some {h : HeapSel} {budget : ClientRec C R → Bool} {r₀ : ClientRec C R} :
    s.readyRule h budget = some r₀ ↔ s.topRec h = some r₀ ∧
      ∃ t, r₀.head? = some t ∧ budget r₀ = true ∧ t.ready = true ∧ t.proportion < .maxTag := by
  unfold readyRule
  split
  · split <;> aesop
  · simp_all

/-- Rule 1 serves exactly a top whose head has passed its reservation tag. -/
theorem reservationRule_eq_some {now : ℚ} {r₀ : ClientRec C R} :
    s.reservationRule now = some r₀ ↔ s.topRec .resv = some r₀ ∧
      ∃ t, r₀.head? = some t ∧ t.reservation ≤ .fin now := by
  unfold reservationRule
  split
  · split <;> aesop
  · simp_all

/-- A record with a ready head with a finite proportion tag, in heap `h` of its class. -/
def ReadyIn (h : HeapSel) (r : ClientRec C R) : Prop :=
  h ∈ HeapSel.ofClass r.info.clientType ∧
    ∃ t, r.head? = some t ∧ t.ready = true ∧ t.proportion < .maxTag

variable {h : HeapSel}

/-- In a heap of proportion tags that ranks ready heads first, a top exists above every ready
head with a finite proportion tag, and is one itself with a smaller effective proportion tag. -/
theorem ready_top_le (hi : s.LadderInv) (hro : h.readyOpt = .raises)
    (htf : h.tagField = .proportion) (hpd : h.usePropDelta = true) {c : C} {r : ClientRec C R}
    (hr : s.findClient c = some r) (hready : ReadyIn h r) :
    ∃ c₀ r₀, s.heapTop h = some c₀ ∧ s.findClient c₀ = some r₀ ∧ s.topRec h = some r₀ ∧
      ReadyIn h r₀ ∧ r₀.effectivePropTag ≤ r.effectivePropTag := by
  obtain ⟨hc, t, ht, htr, htp⟩ := hready
  obtain ⟨q, hq, rfl⟩ := ClientRec.head?_eq_some.mp ht
  obtain ⟨c₀, r₀, htop, hr₀, htr₀, hc₀, hle⟩ := top_le_of_member hi hr hc
  rw [ClientRec.compareKey_of_nextRequest hq, hro, htf, hpd, htr] at hle
  cases hq₀ : r₀.nextRequest with
  | none =>
    rw [ClientRec.compareKey_eq_top.mpr hq₀] at hle
    exact absurd hle (by simp)
  | some q₀ =>
    rw [ClientRec.compareKey_of_nextRequest hq₀, toLex_le_toLex] at hle
    have hle' : q₀.tag.ready = true ∧ q₀.tag.proportion + r₀.propDelta ≤
        q.tag.proportion + r.propDelta := by
      cases hrd : q₀.tag.ready <;> simp_all [readyRank, compareValue, RequestTag.field]
    refine ⟨c₀, r₀, htop, hr₀, htr₀, ⟨hc₀, q₀.tag, by simp [ClientRec.head?, hq₀], hle'.1, ?_⟩, ?_⟩
    · have : q₀.tag.proportion + r₀.propDelta < .maxTag :=
        lt_of_le_of_lt hle'.2 (Dbl.addQ_lt_maxTag.mpr htp)
      exact Dbl.addQ_lt_maxTag.mp this
    · rw [ClientRec.effectivePropTag_of_nextRequest hq₀, ClientRec.effectivePropTag_of_nextRequest hq]
      exact hle'.2

/-- What rules 3, 5 and 7 decide on a state with the invariants: the rule serves the top, which is
a ready head with a finite proportion tag within its budget and with the least effective
proportion tag among such heads; when the rule serves nothing although such a head exists, the
top is one of them with the least effective proportion tag, out of its budget. -/
theorem readyRule_spec (hi : s.LadderInv) (hro : h.readyOpt = .raises)
    (htf : h.tagField = .proportion) (hpd : h.usePropDelta = true)
    (budget : ClientRec C R → Bool) :
    (∀ r₀, s.readyRule h budget = some r₀ → ∃ c₀, s.heapTop h = some c₀ ∧
      s.findClient c₀ = some r₀ ∧ ReadyIn h r₀ ∧ budget r₀ = true ∧
      ∀ c r, s.findClient c = some r → ReadyIn h r → r₀.effectivePropTag ≤ r.effectivePropTag) ∧
    (s.readyRule h budget = none → ∀ c r, s.findClient c = some r → ReadyIn h r →
      ∃ c₀ r₀, s.heapTop h = some c₀ ∧ s.findClient c₀ = some r₀ ∧ ReadyIn h r₀ ∧
        budget r₀ = false ∧
        ∀ c r, s.findClient c = some r → ReadyIn h r → r₀.effectivePropTag ≤ r.effectivePropTag) := by
  have hleast : ∀ r₀, s.topRec h = some r₀ → ∀ c r, s.findClient c = some r → ReadyIn h r →
      r₀.effectivePropTag ≤ r.effectivePropTag := fun r₀ htr c r hr hrd => by
    obtain ⟨_, r₁, -, -, htr₁, -, hle⟩ := ready_top_le hi hro htf hpd hr hrd
    rw [htr, Option.some.injEq] at htr₁
    exact htr₁ ▸ hle
  constructor
  · intro r₀ hrule
    obtain ⟨htr, t, ht, hb, hrt, htp⟩ := readyRule_eq_some.mp hrule
    obtain ⟨c₀, hc₀, hr₀⟩ := Option.bind_eq_some.mp htr
    exact ⟨c₀, hc₀, hr₀, ⟨(hi.classMembership.mem_heaps_iff hr₀ h).mp (List.mem_of_mem_head? hc₀),
      t, ht, hrt, htp⟩, hb, hleast r₀ htr⟩
  · intro hrule c r hr hrd
    obtain ⟨c₀, r₀, htop, hr₀, htr₀, hrd₀, -⟩ := ready_top_le hi hro htf hpd hr hrd
    refine ⟨c₀, r₀, htop, hr₀, hrd₀, Bool.eq_false_iff.mpr fun hb => ?_, hleast r₀ htr₀⟩
    obtain ⟨-, t, ht, hrt, htp⟩ := hrd₀
    cases hrule.symm.trans (readyRule_eq_some.mpr ⟨htr₀, t, ht, hb, hrt, htp⟩)

theorem resv_mem_ofClass {cls : ClientType} : HeapSel.resv ∈ HeapSel.ofClass cls ↔ cls = .R := by
  cases cls <;> decide

/-- Rule 1's condition for a client, over the record's fields: of class R, with a head whose
reservation tag has passed. -/
def ReservationEligible (now : ℚ) (r : ClientRec C R) : Prop :=
  r.info.clientType = .R ∧ ∃ t, r.head? = some t ∧ t.reservation ≤ .fin now

/-- The top of `resv_heap` is an R client whose head has the least reservation tag. -/
theorem resv_top_le (hi : s.LadderInv) {c : C} {r : ClientRec C R} {t : RequestTag}
    (hr : s.findClient c = some r) (hR : r.info.clientType = .R) (ht : r.head? = some t) :
    ∃ c₀ r₀ t₀, s.heapTop .resv = some c₀ ∧ s.findClient c₀ = some r₀ ∧ s.topRec .resv = some r₀ ∧
      r₀.info.clientType = .R ∧ r₀.head? = some t₀ ∧ t₀.reservation ≤ t.reservation := by
  obtain ⟨q, hq, rfl⟩ := ClientRec.head?_eq_some.mp ht
  obtain ⟨c₀, r₀, htop, hr₀, htr₀, hc₀, hle⟩ := top_le_of_member hi hr (resv_mem_ofClass.mpr hR)
  rw [ClientRec.compareKey_of_nextRequest hq] at hle
  cases hq₀ : r₀.nextRequest with
  | none =>
    rw [ClientRec.compareKey_eq_top.mpr hq₀] at hle
    exact absurd hle (by simp)
  | some q₀ =>
    rw [ClientRec.compareKey_of_nextRequest hq₀, toLex_le_toLex] at hle
    refine ⟨c₀, r₀, q₀.tag, htop, hr₀, htr₀, resv_mem_ofClass.mp hc₀,
      by simp [ClientRec.head?, hq₀], ?_⟩
    simpa [HeapSel.readyOpt, readyRank, compareValue, RequestTag.field] using hle

/-- What rule 1 decides on a state with the invariants: it serves the top of `resv_heap`, an R
client whose head has passed its reservation tag, with the least reservation tag among those; it
serves nothing only when no R client's head has passed its reservation tag. -/
theorem reservationRule_spec (hi : s.LadderInv) (now : ℚ) :
    (∀ r₀, s.reservationRule now = some r₀ → ∃ c₀ t₀, s.heapTop .resv = some c₀ ∧
      s.findClient c₀ = some r₀ ∧ r₀.head? = some t₀ ∧ ReservationEligible now r₀ ∧
      ∀ c r t, s.findClient c = some r → ReservationEligible now r → r.head? = some t →
        t₀.reservation ≤ t.reservation) ∧
    (s.reservationRule now = none → ∀ c r, s.findClient c = some r →
      ¬ ReservationEligible now r) := by
  constructor
  · intro r₀ hrule
    obtain ⟨htr, t₀, ht₀, hle⟩ := reservationRule_eq_some.mp hrule
    obtain ⟨c₀, hc₀, hr₀⟩ := Option.bind_eq_some.mp htr
    have hR : r₀.info.clientType = .R := resv_mem_ofClass.mp
      ((hi.classMembership.mem_heaps_iff hr₀ .resv).mp (List.mem_of_mem_head? hc₀))
    refine ⟨c₀, t₀, hc₀, hr₀, ht₀, ⟨hR, t₀, ht₀, hle⟩, fun c r t hr hel ht => ?_⟩
    obtain ⟨_, r₁, t₁, -, -, htr₁, -, ht₁, hle₁⟩ := resv_top_le hi hr hel.1 ht
    cases htr.symm.trans htr₁
    cases ht₀.symm.trans ht₁
    exact hle₁
  · intro hrule c r hr ⟨hR, t, ht, hle⟩
    obtain ⟨_, r₀, t₀, -, -, htr₀, -, ht₀, hle₀⟩ := resv_top_le hi hr hR ht
    cases hrule.symm.trans (reservationRule_eq_some.mpr ⟨htr₀, t₀, ht₀, le_trans hle₀ hle⟩)

end Tops

/-! ## The rules after their walks -/

section AfterWalk

/-- A head that rules 3, 5 and 7 can serve once the limit walks have run, over its fields:
ready or past its limit tag, with a finite proportion tag. -/
def HeadDue (now : ℚ) (r : ClientRec C R) : Prop :=
  ∃ t, r.head? = some t ∧ (t.ready = true ∨ t.limit ≤ .fin now) ∧ t.proportion < .maxTag

variable {s} {t : PriorityQueueBase C R} {lh ph : HeapSel} {now : ℚ}

/-- After a walk of `lh`, a client of the walk's class has a ready head with a finite proportion
tag exactly when, before it, its head was due; the records of other clients are unchanged. -/
theorem walk_transfer (hp : HeapSel.WalkPair lh ph) (hi : s.LadderInv) (hw : t.Walked lh now)
    (hs : WalkStep lh now s t) {c : C} {r : ClientRec C R} (hr : s.findClient c = some r) :
    ∃ r', t.findClient c = some r' ∧ ClientRec.ReadiedOf r r' ∧
      (lh ∈ HeapSel.ofClass r.info.clientType → (ReadyIn ph r' ↔ HeadDue now r)) ∧
      (lh ∉ HeapSel.ofClass r.info.clientType → r' = r) := by
  rcases hs.readies c with hc | ⟨hmem, r₁, q, hr₁, hq, hrd, hlim, hc⟩
  · rw [hc]
    refine ⟨r, hr, .inl rfl, fun hlh => ?_, fun _ => rfl⟩
    have hph := (hp.ofClass_iff _).mp hlh
    constructor
    · rintro ⟨-, t₀, ht₀, htr, htp⟩
      exact ⟨t₀, ht₀, .inl htr, htp⟩
    · rintro ⟨t₀, ht₀, hdue, htp⟩
      refine ⟨hph, t₀, ht₀, ?_, htp⟩
      rcases hdue with hdue | hdue
      · exact hdue
      · -- a head left not ready with a passed limit tag contradicts the end of the walk
        by_contra hnr
        simp only [Bool.not_eq_true] at hnr
        obtain ⟨q₀, hq₀, rfl⟩ := ClientRec.head?_eq_some.mp ht₀
        have hct : c ∈ t.heaps lh :=
          (hs.perm lh).symm.subset ((hi.classMembership.mem_heaps_iff hr lh).mpr hlh)
        exact absurd hdue (not_le.mpr (hw c hct r q₀ (hc.trans hr) hq₀ hnr))
  · rw [hr, Option.some.injEq] at hr₁
    subst hr₁
    refine ⟨_, hc, .inr ⟨q, hq, rfl⟩, fun hlh => ?_, fun hlh =>
      absurd ((hi.classMembership.mem_heaps_iff hr lh).mp hmem) hlh⟩
    have hph := (hp.ofClass_iff _).mp hlh
    have hhead : (r.setHeadTag { q.tag with ready := true }).head? =
        some { q.tag with ready := true } := by
      simp [ClientRec.head?, ClientRec.nextRequest_setHeadTag hq]
    constructor
    · rintro ⟨-, t₀, ht₀, -, htp⟩
      rw [hhead, Option.some.injEq] at ht₀
      subst ht₀
      exact ⟨q.tag, by simp [ClientRec.head?, hq], .inr hlim, htp⟩
    · rintro ⟨t₀, ht₀, -, htp⟩
      obtain ⟨q₀, hq₀, rfl⟩ := ClientRec.head?_eq_some.mp ht₀
      rw [hq, Option.some.injEq] at hq₀
      subst hq₀
      exact ⟨by simpa using hph, _, hhead, rfl, htp⟩

/-- Every record after a walk comes from a record before it. -/
theorem walk_source (hs : WalkStep lh now s t) {c : C} {r' : ClientRec C R}
    (hr' : t.findClient c = some r') : ∃ r, s.findClient c = some r ∧ ClientRec.ReadiedOf r r' := by
  rcases hs.readies c with hc | ⟨-, r, q, hr, hq, -, -, hc⟩
  · exact ⟨r', hc ▸ hr', .inl rfl⟩
  · rw [hc, Option.some.injEq] at hr'
    exact ⟨r, hr, .inr ⟨q, hq, hr'.symm⟩⟩

/-- What a rule serving heap `ph` of state `t` with budget `b` decides, in terms of the records of
state `s`: it serves the top, a client of the heap's class with a due head, within its budget and
with the least effective proportion tag among the clients of the class with a due head; when it
serves nothing although such a client exists, the top is one of them with the least effective
proportion tag, out of its budget. -/
structure RuleDecides (now : ℚ) (s t : PriorityQueueBase C R) (ph : HeapSel)
    (b : ClientRec C R → Bool) : Prop where
  serves : ∀ r₀, t.readyRule ph b = some r₀ → ∃ c₀ r, t.heapTop ph = some c₀ ∧
    s.findClient c₀ = some r ∧ ph ∈ HeapSel.ofClass r.info.clientType ∧ HeadDue now r ∧
    b r = true ∧ ∀ c' r', s.findClient c' = some r' → ph ∈ HeapSel.ofClass r'.info.clientType →
      HeadDue now r' → r.effectivePropTag ≤ r'.effectivePropTag
  blocked : t.readyRule ph b = none → ∀ c r, s.findClient c = some r →
    ph ∈ HeapSel.ofClass r.info.clientType → HeadDue now r →
    ∃ c₀ r₀, s.findClient c₀ = some r₀ ∧ ph ∈ HeapSel.ofClass r₀.info.clientType ∧
      HeadDue now r₀ ∧ b r₀ = false ∧
      ∀ c' r', s.findClient c' = some r' → ph ∈ HeapSel.ofClass r'.info.clientType →
        HeadDue now r' → r₀.effectivePropTag ≤ r'.effectivePropTag

/-- Rule 3, 5 or 7 after its walk decides over the records before the walk. -/
theorem walkedRule_spec (hp : HeapSel.WalkPair lh ph) (hro : ph.readyOpt = .raises)
    (htf : ph.tagField = .proportion) (hpd : ph.usePropDelta = true) (hi : s.LadderInv)
    (b : ClientRec C R → Bool) (hb : ∀ r r', ClientRec.ReadiedOf r r' → b r' = b r) :
    RuleDecides now s (s.promoteWalk lh ph now) ph b := by
  obtain ⟨hi', hw, hs⟩ := promoteWalk_spec hp now hi
  have htr : ∀ c r, s.findClient c = some r → ph ∈ HeapSel.ofClass r.info.clientType →
      ∃ r', (s.promoteWalk lh ph now).findClient c = some r' ∧ ClientRec.ReadiedOf r r' ∧
        (ReadyIn ph r' ↔ HeadDue now r) := fun c r hr hph => by
    obtain ⟨r', hr', hro', hiff, -⟩ := walk_transfer hp hi hw hs hr
    exact ⟨r', hr', hro', hiff ((hp.ofClass_iff _).mpr hph)⟩
  -- a top after the walk comes from a client of the class with a due head
  have hsrc : ∀ c₀ r₀, (s.promoteWalk lh ph now).findClient c₀ = some r₀ → ReadyIn ph r₀ →
      ∃ r, s.findClient c₀ = some r ∧ ph ∈ HeapSel.ofClass r.info.clientType ∧ HeadDue now r ∧
        b r = b r₀ ∧ r.effectivePropTag = r₀.effectivePropTag := fun c₀ r₀ hr₀ hrd₀ => by
    obtain ⟨r, hr, hro⟩ := walk_source hs hr₀
    have hsame := hro.same
    have hph : ph ∈ HeapSel.ofClass r.info.clientType := hsame.1 ▸ hrd₀.1
    obtain ⟨r', hr', -, hiff⟩ := htr c₀ r hr hph
    rw [hr₀, Option.some.injEq] at hr'
    subst hr'
    exact ⟨r, hr, hph, hiff.mp hrd₀, (hb r _ hro).symm, hsame.2.2.2.2.symm⟩
  -- the least effective tag among ready heads after the walk bounds every due head before it
  have hleast : ∀ r₀ : ClientRec C R, (∀ c r, (s.promoteWalk lh ph now).findClient c = some r →
      ReadyIn ph r → r₀.effectivePropTag ≤ r.effectivePropTag) →
      ∀ c' r', s.findClient c' = some r' → ph ∈ HeapSel.ofClass r'.info.clientType →
        HeadDue now r' → r₀.effectivePropTag ≤ r'.effectivePropTag :=
    fun r₀ hl c' r' hr' hph hdue => by
      obtain ⟨r'', hr'', hro, hiff⟩ := htr c' r' hr' hph
      exact hro.same.2.2.2.2 ▸ hl c' r'' hr'' (hiff.mpr hdue)
  have spec := readyRule_spec hi' hro htf hpd b
  constructor
  · intro r₀ hrule
    obtain ⟨c₀, htop, hr₀, hrd₀, hb₀, hl⟩ := spec.1 r₀ hrule
    obtain ⟨r, hr, hph, hdue, hbr, heff⟩ := hsrc c₀ r₀ hr₀ hrd₀
    exact ⟨c₀, r, htop, hr, hph, hdue, hbr.trans hb₀, heff ▸ hleast r₀ hl⟩
  · intro hrule c r hr hph hdue
    obtain ⟨r'', hr'', -, hiff⟩ := htr c r hr hph
    obtain ⟨c₀, r₀, -, hr₀, hrd₀, hb₀, hl⟩ := spec.2 hrule c r'' hr'' (hiff.mpr hdue)
    obtain ⟨r₁, hr₁, hph₁, hdue₁, hbr, heff⟩ := hsrc c₀ r₀ hr₀ hrd₀
    exact ⟨c₀, r₁, hr₁, hph₁, hdue₁, hbr.trans hb₀, heff ▸ hleast r₀ hl⟩

namespace RuleDecides

variable {s₀ : PriorityQueueBase C R} {ph : HeapSel} {b : ClientRec C R → Bool}

/-- What a rule decides over the records of `s` it decides over those of `s₀` when the two agree
on the clients of the heap's class. -/
theorem transfer (hd : RuleDecides now s t ph b)
    (hf : ∀ c r, ph ∈ HeapSel.ofClass r.info.clientType →
      (s.findClient c = some r ↔ s₀.findClient c = some r)) : RuleDecides now s₀ t ph b where
  serves r₀ hrule := by
    obtain ⟨c₀, r, htop, hr, hph, hdue, hb, hl⟩ := hd.serves r₀ hrule
    exact ⟨c₀, r, htop, (hf _ _ hph).mp hr, hph, hdue, hb,
      fun c' r' hr' hph' => hl c' r' ((hf _ _ hph').mpr hr') hph'⟩
  blocked hrule c r hr hph hdue := by
    obtain ⟨c₀, r₀, hr₀, hph₀, hdue₀, hb₀, hl⟩ := hd.blocked hrule c r ((hf _ _ hph).mpr hr) hph hdue
    exact ⟨c₀, r₀, (hf _ _ hph₀).mp hr₀, hph₀, hdue₀, hb₀,
      fun c' r' hr' hph' => hl c' r' ((hf _ _ hph').mpr hr') hph'⟩

variable {K E : ClientRec C R → Prop}
  (hK : ∀ r, ph ∈ HeapSel.ofClass r.info.clientType ↔ K r)
  (hE : ∀ r, E r ↔ K r ∧ HeadDue now r ∧ b r = true)
include hK hE

/-- A rule that serves serves the top, an eligible client with the least effective proportion tag
among the eligible ones. -/
theorem serves_least (hd : RuleDecides now s t ph b) (hne : t.readyRule ph b ≠ none) :
    ∃ c r, t.heapTop ph = some c ∧ s.findClient c = some r ∧ E r ∧
      ∀ c' r', s.findClient c' = some r' → E r' → r.effectivePropTag ≤ r'.effectivePropTag := by
  obtain ⟨r₀, hr₀⟩ := Option.ne_none_iff_exists'.mp hne
  obtain ⟨c, r, htop, hr, hph, hdue, hb, hl⟩ := hd.serves r₀ hr₀
  refine ⟨c, r, htop, hr, (hE r).mpr ⟨(hK r).mp hph, hdue, hb⟩, fun c' r' hr' he => ?_⟩
  obtain ⟨hk', hdue', -⟩ := (hE r').mp he
  exact hl c' r' hr' ((hK r').mpr hk') hdue'

/-- A rule that serves nothing although a client is eligible is blocked by a client of the class
with a due head, out of its budget, with the least effective proportion tag among the eligible
ones. -/
theorem blocked_least (hd : RuleDecides now s t ph b) (hnone : t.readyRule ph b = none)
    (hex : ∃ c r, s.findClient c = some r ∧ E r) :
    ∃ c r, s.findClient c = some r ∧ K r ∧ HeadDue now r ∧ b r = false ∧
      ∀ c' r', s.findClient c' = some r' → E r' → r.effectivePropTag ≤ r'.effectivePropTag := by
  obtain ⟨c, r, hr, he⟩ := hex
  obtain ⟨hk, hdue, -⟩ := (hE r).mp he
  obtain ⟨c₀, r₀, hr₀, hph₀, hdue₀, hb₀, hl⟩ := hd.blocked hnone c r hr ((hK r).mpr hk) hdue
  refine ⟨c₀, r₀, hr₀, (hK r₀).mp hph₀, hdue₀, hb₀, fun c' r' hr' he' => ?_⟩
  obtain ⟨hk', hdue', -⟩ := (hE r').mp he'
  exact hl c' r' hr' ((hK r').mpr hk') hdue'

end RuleDecides

/-- A walk leaves the records of the clients outside its class as they were. -/
theorem walk_find_other (hp : HeapSel.WalkPair lh ph) (hi : s.LadderInv) (hw : t.Walked lh now)
    (hs : WalkStep lh now s t) {c : C} {r : ClientRec C R}
    (hlh : lh ∉ HeapSel.ofClass r.info.clientType) :
    t.findClient c = some r ↔ s.findClient c = some r := by
  constructor
  · intro ht
    obtain ⟨r₁, hr₁, hro⟩ := walk_source hs ht
    have hlh₁ : lh ∉ HeapSel.ofClass r₁.info.clientType := by rwa [← hro.same.1]
    obtain ⟨r', hr', -, -, heq⟩ := walk_transfer hp hi hw hs hr₁
    rw [ht, Option.some.injEq, heq hlh₁] at hr'
    rwa [hr']
  · intro hr
    obtain ⟨r', hr', -, -, heq⟩ := walk_transfer hp hi hw hs hr
    rwa [heq hlh] at hr'

end AfterWalk

/-! ## The next call -/

/-- The top of heap `h` has a ready head with a finite proportion tag. -/
def ReadyAtTop (h : HeapSel) : Prop :=
  ∃ r t, s.topRec h = some r ∧ r.head? = some t ∧ t.ready = true ∧ t.proportion < .maxTag

theorem limitNextCall_eq_error_iff (h : HeapSel) (n : Dbl) :
    (∃ e, s.limitNextCall h n = .error e) ↔ s.ReadyAtTop h := by
  unfold limitNextCall ReadyAtTop
  rcases hr : s.topRec h with _ | r
  · simp
  · rcases ht : r.head? with _ | t
    · simp [ht]
    · cases hready : t.ready <;> by_cases hm : Dbl.maxTag = t.proportion <;>
        simp [hready, ht, hm, Dbl.lt_maxTag_iff, ne_comm]

theorem not_readyAtTop_of_limitNextCall {h : HeapSel} {n n' : Dbl}
    (hl : s.limitNextCall h n = .ok n') : ¬ s.ReadyAtTop h := fun hb => by
  obtain ⟨e, he⟩ := (limitNextCall_eq_error_iff s h n).mpr hb
  rw [he] at hl
  cases hl

/-- The next-call computation fails exactly when the top of `r_limit_heap` or of `limit_heap` has
a ready head with a finite proportion tag. -/
theorem nextCall_eq_error_iff :
    (∃ e, s.nextCall = .error e) ↔ s.ReadyAtTop .rLimit ∨ s.ReadyAtTop .limit := by
  simp only [nextCall, bind, Except.bind]
  split
  · rename_i e h₁
    exact iff_of_true ⟨e, rfl⟩ (.inl ((limitNextCall_eq_error_iff s _ _).mp ⟨e, h₁⟩))
  · rename_i n₁ h₁
    split
    · rename_i e h₂
      exact iff_of_true ⟨e, rfl⟩ (.inr ((limitNextCall_eq_error_iff s _ _).mp ⟨e, h₂⟩))
    · rename_i n₂ h₂
      simp [pure, Except.pure, not_readyAtTop_of_limitNextCall s h₁,
        not_readyAtTop_of_limitNextCall s h₂]

/-- The next call is a time to wait for, or nothing: never a dispatch. -/
theorem nextCall_ne_returning {n : NextReq} (h : s.nextCall = .ok n) (hid : HeapId) :
    n ≠ .returning hid := by
  simp only [nextCall, bind, Except.bind] at h
  split at h
  · cases h
  split at h
  · cases h
  simp only [pure, Except.pure, Except.ok.injEq] at h
  subst h
  split <;> simp

/-- A B client whose window budget is used up is refused by rule 3 with a ready head, and rule 9
then fails its assertion: the budget of one request per window runs out at the first dispatch. -/
theorem budget_refusal_fails_assertion :
    ∃ s₀ : PriorityQueueBase ℕ ℕ, init 2 600 900 360 false 0 1 1 = .ok s₀ ∧
      s₀.run [.addRequest (fun _ => ⟨0, 1, 0, .B⟩) 100 1 {} 0,
        .addRequest (fun _ => ⟨0, 1, 0, .B⟩) 101 1 {} 0,
        .pullRequest (fun _ => ⟨0, 1, 0, .B⟩) 0, .pullRequest (fun _ => ⟨0, 1, 0, .B⟩) 0] =
        .error "assert(!next.tag.ready || max_tag == next.tag.proportion)" :=
  ⟨_, rfl, rfl⟩

/-- The next call reads the tops of `resv_heap`, `r_limit_heap` and `limit_heap` only: it is the
same whatever `best_limit_heap` holds. -/
theorem nextCall_setHeap_bestLimit (l : List C) :
    (s.setHeap .bestLimit l).nextCall = s.nextCall := by
  simp [nextCall, limitNextCall, topRec, heapTop, setHeap, findClient]

/-- An A client whose head waits for its limit tag gets `None` at time 0 and is dispatched at
time 1, with no operation in between: the limit walk of `best_limit_heap` readies it, but the next
call gave no time to wait for. -/
theorem none_then_returning :
    ∃ (s₀ s₁ s₂ : PriorityQueueBase ℕ ℕ), init 2 600 900 360 false 0 10 1 = .ok s₀ ∧
      s₀.doAddRequest (fun _ => ⟨0, 1, 1, .A⟩) 100 1 {} 0 = .ok s₁ ∧
      s₁.doNextRequest (fun _ => ⟨0, 1, 1, .A⟩) 0 = .ok (.none, s₂) ∧
      (s₂.doNextRequest (fun _ => ⟨0, 1, 1, .A⟩) 1).map (·.1) = .ok (.returning .bestEffort) :=
  ⟨_, _, _, rfl, rfl, rfl, by decide⟩

/-- A client of class R with weight 0 has the proportion tag `max_tag`. At time 7/10 the walk of
`r_limit_heap` readies its head, whose limit tag 1/2 has passed, and rule 5 cannot serve it; the
next call passes the assertion on that ready top and takes its limit tag, so `pull_request` asks to
come back at 1/2, before the time of the call. -/
theorem pull_future_before_now :
    ∃ s₀ s₁ : PriorityQueueBase ℕ ℕ, init 2 600 900 360 false 0 10 1 = .ok s₀ ∧
      s₀.doAddRequest (fun _ => ⟨1, 0, 2, .R⟩) 100 1 {} 0 = .ok s₁ ∧
      (s₁.pullRequest (fun _ => ⟨1, 0, 2, .R⟩) (7 / 10)).map (·.1) =
        .ok (.future (.fin (1 / 2))) :=
  ⟨_, _, rfl, rfl, by decide⟩

/-! ## The ladder -/

section Ladder

variable {s} {s' : PriorityQueueBase C R} {now : ℚ} {n : NextReq}

/-- What the ladder can do, with the limit-break rules off: dispatch by one of rules 1, 3, 5 and
7, each reached when the rules before it served nothing, or hand back the next call. -/
theorem dispatchLadder_cases (halb : s.allowLimitBreak = false)
    (h : s.dispatchLadder now = .ok (n, s')) :
    (s.reservationRule now ≠ none ∧ n = .returning .reservation ∧ s'.heaps = s.heaps) ∨
    (s.reservationRule now = none ∧
      (s.promoteWalk .limit .burst now).burstRule ≠ none ∧ n = .returning .burst ∧
      s'.heaps = (s.promoteWalk .limit .burst now).heaps) ∨
    (s.reservationRule now = none ∧ (s.promoteWalk .limit .burst now).burstRule = none ∧
      ((s.promoteWalk .limit .burst now).promoteWalk .rLimit .deltar now).deltarRule ≠ none ∧
      n = .returning .deltar ∧
      s'.heaps = ((s.promoteWalk .limit .burst now).promoteWalk .rLimit .deltar now).heaps) ∨
    (s.reservationRule now = none ∧ (s.promoteWalk .limit .burst now).burstRule = none ∧
      ((s.promoteWalk .limit .burst now).promoteWalk .rLimit .deltar now).deltarRule = none ∧
      (((s.promoteWalk .limit .burst now).promoteWalk .rLimit .deltar now).promoteWalk
        .bestLimit .best now).bestRule ≠ none ∧ n = .returning .bestEffort ∧
      s'.heaps = (((s.promoteWalk .limit .burst now).promoteWalk .rLimit .deltar now).promoteWalk
        .bestLimit .best now).heaps) ∨
    (s.reservationRule now = none ∧ (s.promoteWalk .limit .burst now).burstRule = none ∧
      ((s.promoteWalk .limit .burst now).promoteWalk .rLimit .deltar now).deltarRule = none ∧
      (((s.promoteWalk .limit .burst now).promoteWalk .rLimit .deltar now).promoteWalk
        .bestLimit .best now).bestRule = none ∧ ∀ hid, n ≠ .returning hid) := by
  unfold dispatchLadder at h
  split at h
  · rename_i r hr
    cases h
    exact .inl ⟨by simp [hr], rfl, rfl⟩
  rename_i h₁
  dsimp only at h
  split at h
  · rename_i r hr
    cases h
    exact .inr (.inl ⟨h₁, by simp [hr], rfl, rfl⟩)
  rename_i h₃
  split at h
  · rename_i r hr
    cases h
    exact .inr (.inr (.inl ⟨h₁, h₃, by simp [hr], rfl, rfl⟩))
  rename_i h₅
  split at h
  · rename_i r hr
    cases h
    exact .inr (.inr (.inr (.inl ⟨h₁, h₃, h₅, by simp [hr], rfl, rfl⟩)))
  rename_i h₇
  have hlb : (((s.promoteWalk .limit .burst now).promoteWalk .rLimit .deltar now).promoteWalk
      .bestLimit .best now).limitBreak = none := by
    simp [limitBreak, promoteWalk, promoteWalkLoop_allowLimitBreak, halb]
  rw [hlb] at h
  obtain ⟨n', hn', he⟩ := except_map_eq_ok.mp h
  cases he
  exact .inr (.inr (.inr (.inr ⟨h₁, h₃, h₅, h₇, fun hid => nextCall_ne_returning _ hn' hid⟩)))

/-- Rule 3's condition for a client, over the record's fields: of class B, with a due head, and
`b_counter < max(resource, 0)`. -/
def BurstEligible (now : ℚ) (r : ClientRec C R) : Prop :=
  r.info.clientType = .B ∧ HeadDue now r ∧ Dbl.natLt r.bCounter (Dbl.maxZero r.resource) = true

/-- Rule 5's condition for a client, over the record's fields: of class R, with a due head, and
`deltar_counter < max(resource - reservation * win_size, 0)`. -/
def DeltarEligible (now winSize : ℚ) (r : ClientRec C R) : Prop :=
  r.info.clientType = .R ∧ HeadDue now r ∧
    Dbl.natLt r.deltarCounter
      (Dbl.maxZero (Dbl.subQ r.resource (r.info.reservation * winSize))) = true

/-- Rule 7's condition for a client, over the record's fields: of class A or O, with a due head. -/
def BestEffortEligible (now : ℚ) (r : ClientRec C R) : Prop :=
  (r.info.clientType = .A ∨ r.info.clientType = .O) ∧ HeadDue now r

/-- The ladder's decision, for the state `s` the roll-over leaves
and the answer `n` and state `s'` of the ladder. Rules 1 and 7 serve exactly when a client is
eligible; rules 3 and 5 serve only eligible clients, and an eligible client goes unserved only
behind a client of the class with a due head, out of its budget, whose effective proportion tag is
not larger. Each rule serves the client at the top of its heap, which `pull_request` then pops,
and that client has the least key of the rule among the eligible ones. -/
structure LadderSpec (now : ℚ) (s : PriorityQueueBase C R) (n : NextReq)
    (s' : PriorityQueueBase C R) : Prop where
  reservation_iff : n = .returning .reservation ↔
    ∃ c r, s.findClient c = some r ∧ ReservationEligible now r
  reservation_least : n = .returning .reservation → ∃ c r t, s'.heapTop .resv = some c ∧
    s.findClient c = some r ∧ r.head? = some t ∧ ReservationEligible now r ∧
    ∀ c' r' t', s.findClient c' = some r' → ReservationEligible now r' → r'.head? = some t' →
      t.reservation ≤ t'.reservation
  burst_least : n = .returning .burst → ∃ c r, s'.heapTop .burst = some c ∧
    s.findClient c = some r ∧ BurstEligible now r ∧
    ∀ c' r', s.findClient c' = some r' → BurstEligible now r' →
      r.effectivePropTag ≤ r'.effectivePropTag
  burst_blocked : n ≠ .returning .reservation → n ≠ .returning .burst →
    (∃ c r, s.findClient c = some r ∧ BurstEligible now r) →
    ∃ c r, s.findClient c = some r ∧ r.info.clientType = .B ∧ HeadDue now r ∧
      Dbl.natLt r.bCounter (Dbl.maxZero r.resource) = false ∧
      ∀ c' r', s.findClient c' = some r' → BurstEligible now r' →
        r.effectivePropTag ≤ r'.effectivePropTag
  deltar_least : n = .returning .deltar → ∃ c r, s'.heapTop .deltar = some c ∧
    s.findClient c = some r ∧ DeltarEligible now s.winSize r ∧
    ∀ c' r', s.findClient c' = some r' → DeltarEligible now s.winSize r' →
      r.effectivePropTag ≤ r'.effectivePropTag
  deltar_blocked : n ≠ .returning .reservation → n ≠ .returning .burst →
    n ≠ .returning .deltar → (∃ c r, s.findClient c = some r ∧ DeltarEligible now s.winSize r) →
    ∃ c r, s.findClient c = some r ∧ r.info.clientType = .R ∧ HeadDue now r ∧
      Dbl.natLt r.deltarCounter
        (Dbl.maxZero (Dbl.subQ r.resource (r.info.reservation * s.winSize))) = false ∧
      ∀ c' r', s.findClient c' = some r' → DeltarEligible now s.winSize r' →
        r.effectivePropTag ≤ r'.effectivePropTag
  bestEffort_iff : n ≠ .returning .reservation → n ≠ .returning .burst →
    n ≠ .returning .deltar →
    (n = .returning .bestEffort ↔ ∃ c r, s.findClient c = some r ∧ BestEffortEligible now r)
  bestEffort_least : n = .returning .bestEffort → ∃ c r, s'.heapTop .best = some c ∧
    s.findClient c = some r ∧ BestEffortEligible now r ∧
    ∀ c' r', s.findClient c' = some r' → BestEffortEligible now r' →
      r.effectivePropTag ≤ r'.effectivePropTag

theorem burst_mem_ofClass {cls : ClientType} : HeapSel.burst ∈ HeapSel.ofClass cls ↔ cls = .B := by
  cases cls <;> decide

theorem deltar_mem_ofClass {cls : ClientType} :
    HeapSel.deltar ∈ HeapSel.ofClass cls ↔ cls = .R := by
  cases cls <;> decide

theorem best_mem_ofClass {cls : ClientType} :
    HeapSel.best ∈ HeapSel.ofClass cls ↔ cls = .A ∨ cls = .O := by
  cases cls <;> decide

omit [LinearOrder C] in
theorem bestEffortEligible_iff {r : ClientRec C R} : BestEffortEligible now r ↔
    (r.info.clientType = .A ∨ r.info.clientType = .O) ∧ HeadDue now r ∧ true = true :=
  ⟨fun ⟨hc, hd⟩ => ⟨hc, hd, rfl⟩, fun ⟨hc, hd, _⟩ => ⟨hc, hd⟩⟩

/-- **The ladder's decision.** On a state where every client is in exactly the heaps of its
class and every heap has the heap property, with the limit-break rules off, the ladder of
`do_next_request` decides as `LadderSpec` states. -/
theorem dispatchLadder_spec (hi : s.LadderInv) (halb : s.allowLimitBreak = false)
    (h : s.dispatchLadder now = .ok (n, s')) : LadderSpec now s n s' := by
  have hp₁ : HeapSel.WalkPair .limit .burst := HeapSel.walkPair_of_mem (by decide)
  have hp₂ : HeapSel.WalkPair .rLimit .deltar := HeapSel.walkPair_of_mem (by decide)
  have hp₃ : HeapSel.WalkPair .bestLimit .best := HeapSel.walkPair_of_mem (by decide)
  obtain ⟨hi₁, hw₁, hs₁⟩ := promoteWalk_spec hp₁ now hi
  obtain ⟨hi₂, hw₂, hs₂⟩ := promoteWalk_spec hp₂ now hi₁
  have hcases := dispatchLadder_cases halb h
  set t₁ := s.promoteWalk .limit .burst now
  set t₂ := t₁.promoteWalk .rLimit .deltar now
  set t₃ := t₂.promoteWalk .bestLimit .best now
  -- what rules 3, 5 and 7 decide, over the records the roll-over left: the walks before a rule
  -- leave the records of its class as they were
  have R3 : RuleDecides now s t₁ .burst fun r => Dbl.natLt r.bCounter (Dbl.maxZero r.resource) :=
    walkedRule_spec hp₁ rfl rfl rfl hi _ fun r r' h => by simp only [h.same.2.1, h.same.2.2.2.1]
  have R5 : RuleDecides now s t₂ .deltar fun r => Dbl.natLt r.deltarCounter
      (Dbl.maxZero (Dbl.subQ r.resource (r.info.reservation * t₂.winSize))) :=
    (walkedRule_spec hp₂ rfl rfl rfl hi₁ _ fun r r' h => by
      simp only [h.same.1, h.same.2.2.1, h.same.2.2.2.1]).transfer fun c r hph =>
        walk_find_other hp₁ hi hw₁ hs₁ (by rw [deltar_mem_ofClass.mp hph]; decide)
  have R7 : RuleDecides now s t₃ .best fun _ => true :=
    (walkedRule_spec hp₃ rfl rfl rfl hi₂ (fun _ => true) fun _ _ _ => rfl).transfer fun c r hph =>
      have hne : ∀ lh ∈ [HeapSel.limit, .rLimit], lh ∉ HeapSel.ofClass r.info.clientType := by
        rcases best_mem_ofClass.mp hph with h | h <;> rw [h] <;> decide
      (walk_find_other hp₂ hi₁ hw₂ hs₂ (hne _ (by simp))).trans
        (walk_find_other hp₁ hi hw₁ hs₁ (hne _ (by simp)))
  have hwin : t₂.winSize = s.winSize := hs₂.winSize_eq.trans hs₁.winSize_eq
  rw [hwin] at R5
  rw [deltarRule, hwin] at hcases
  have hres0 : s.reservationRule now = none →
      ¬ ∃ c r, s.findClient c = some r ∧ ReservationEligible now r :=
    fun h₁ ⟨c, r, hr, he⟩ => (reservationRule_spec hi now).2 h₁ c r hr he
  have hburst := R3.blocked_least (E := BurstEligible now) (fun _ => burst_mem_ofClass)
    fun _ => Iff.rfl
  have hdeltar := R5.blocked_least (E := DeltarEligible now s.winSize)
    (fun _ => deltar_mem_ofClass) fun _ => Iff.rfl
  have hbest0 : t₃.bestRule = none → ¬ ∃ c r, s.findClient c = some r ∧ BestEffortEligible now r :=
    fun h₇ hex => by
      obtain ⟨-, -, -, -, -, hb, -⟩ :=
        R7.blocked_least (fun _ => best_mem_ofClass) (fun _ => bestEffortEligible_iff) h₇ hex
      cases hb
  rcases hcases with ⟨h₁, rfl, hh⟩ | ⟨h₁, h₃, rfl, hh⟩ | ⟨h₁, h₃, h₅, rfl, hh⟩ |
    ⟨h₁, h₃, h₅, h₇, rfl, hh⟩ | ⟨h₁, h₃, h₅, h₇, hn⟩
  · -- rule 1 serves
    obtain ⟨r₀, hr₀⟩ := Option.ne_none_iff_exists'.mp h₁
    obtain ⟨c, t, htop, hr, ht, he, hl⟩ := (reservationRule_spec hi now).1 r₀ hr₀
    exact ⟨iff_of_true rfl ⟨c, r₀, hr, he⟩,
      fun _ => ⟨c, r₀, t, (heapTop_of_heaps hh _).trans htop, hr, ht, he, hl⟩,
      nofun, fun h => (h rfl).elim, nofun, fun h => (h rfl).elim, fun h => (h rfl).elim, nofun⟩
  · -- rule 3 serves
    obtain ⟨c, r, htop, hr⟩ :=
      R3.serves_least (E := BurstEligible now) (fun _ => burst_mem_ofClass) (fun _ => Iff.rfl) h₃
    exact ⟨iff_of_false nofun (hres0 h₁), nofun,
      fun _ => ⟨c, r, (heapTop_of_heaps hh _).trans htop, hr⟩, fun _ h => (h rfl).elim, nofun,
      fun _ h => (h rfl).elim, fun _ h => (h rfl).elim, nofun⟩
  · -- rule 5 serves
    obtain ⟨c, r, htop, hr⟩ := R5.serves_least (E := DeltarEligible now s.winSize)
      (fun _ => deltar_mem_ofClass) (fun _ => Iff.rfl) h₅
    exact ⟨iff_of_false nofun (hres0 h₁), nofun, nofun, fun _ _ => hburst h₃,
      fun _ => ⟨c, r, (heapTop_of_heaps hh _).trans htop, hr⟩, fun _ _ h => (h rfl).elim,
      fun _ _ h => (h rfl).elim, nofun⟩
  · -- rule 7 serves
    obtain ⟨c, r, htop, hr⟩ :=
      R7.serves_least (fun _ => best_mem_ofClass) (fun _ => bestEffortEligible_iff) h₇
    exact ⟨iff_of_false nofun (hres0 h₁), nofun, nofun, fun _ _ => hburst h₃, nofun,
      fun _ _ _ => hdeltar h₅, fun _ _ _ => iff_of_true rfl ⟨c, r, hr.1, hr.2.1⟩,
      fun _ => ⟨c, r, (heapTop_of_heaps hh _).trans htop, hr⟩⟩
  · -- no rule serves: the ladder hands back the next call
    exact ⟨iff_of_false (hn _) (hres0 h₁), fun h => (hn _ h).elim, fun h => (hn _ h).elim,
      fun _ _ => hburst h₃, fun h => (hn _ h).elim, fun _ _ _ => hdeltar h₅,
      fun _ _ _ => iff_of_false (hn _) (hbest0 h₇), fun h => (hn _ h).elim⟩

/-- The ladder's decision on a state with the invariants where rule 3 refuses its top: client 1,
of weight 2, has used its budget of one request per window, and its second request, readied by the
walk of `limit_heap`, puts it back at the top of `burst_heap` above client 2. -/
theorem dispatchLadder_spec_of_budget_blocked :
    ∃ (s₀ s₁ s' : PriorityQueueBase ℕ ℕ) (outs : List (Out ℕ ℕ)) (n : NextReq),
      init 2 600 900 360 false 0 2 1 = .ok s₀ ∧
      s₀.run [.addRequest (fun c => if c = 1 then ⟨0, 2, 0, .B⟩ else if c = 2 then ⟨0, 1, 0, .B⟩ else ⟨0, 1, 1, .B⟩) 100 1 {} 0,
        .addRequest (fun c => if c = 1 then ⟨0, 2, 0, .B⟩ else if c = 2 then ⟨0, 1, 0, .B⟩ else ⟨0, 1, 1, .B⟩) 101 1 {} 0,
        .addRequest (fun c => if c = 1 then ⟨0, 2, 0, .B⟩ else if c = 2 then ⟨0, 1, 0, .B⟩ else ⟨0, 1, 1, .B⟩) 200 2 {} 0,
        .addRequest (fun c => if c = 1 then ⟨0, 2, 0, .B⟩ else if c = 2 then ⟨0, 1, 0, .B⟩ else ⟨0, 1, 1, .B⟩) 300 3 {} 0,
        .pullRequest (fun c => if c = 1 then ⟨0, 2, 0, .B⟩ else if c = 2 then ⟨0, 1, 0, .B⟩ else ⟨0, 1, 1, .B⟩) 0] = .ok (outs, s₁) ∧
      s₁.LadderInv ∧ s₁.allowLimitBreak = false ∧ s₁.dispatchLadder 0 = .ok (n, s') ∧
      LadderSpec 0 s₁ n s' :=
  ⟨_, _, _, _, _, rfl, rfl, by decide, rfl, rfl, dispatchLadder_spec (by decide) rfl rfl⟩

end Ladder

/-- Three B clients share a capacity of 2 by weight: client 1, of weight 2, gets one request per
window and uses it at the first dispatch. The walk of `limit_heap` then readies its second request,
which puts it back at the top of `burst_heap`, and rule 3 refuses it. Client 2 is burst-eligible,
no client is of class R, and `do_next_request` at the same time, with no roll-over, hands back a time
to wait for. -/
theorem budget_top_blocks_eligible_client :
    ∃ (s₀ s₁ : PriorityQueueBase ℕ ℕ) (outs : List (Out ℕ ℕ)) (r : ClientRec ℕ ℕ),
      init 2 600 900 360 false 0 2 1 = .ok s₀ ∧
      s₀.run [.addRequest (fun c => if c = 1 then ⟨0, 2, 0, .B⟩ else if c = 2 then ⟨0, 1, 0, .B⟩ else ⟨0, 1, 1, .B⟩) 100 1 {} 0,
        .addRequest (fun c => if c = 1 then ⟨0, 2, 0, .B⟩ else if c = 2 then ⟨0, 1, 0, .B⟩ else ⟨0, 1, 1, .B⟩) 101 1 {} 0,
        .addRequest (fun c => if c = 1 then ⟨0, 2, 0, .B⟩ else if c = 2 then ⟨0, 1, 0, .B⟩ else ⟨0, 1, 1, .B⟩) 200 2 {} 0,
        .addRequest (fun c => if c = 1 then ⟨0, 2, 0, .B⟩ else if c = 2 then ⟨0, 1, 0, .B⟩ else ⟨0, 1, 1, .B⟩) 300 3 {} 0,
        .pullRequest (fun c => if c = 1 then ⟨0, 2, 0, .B⟩ else if c = 2 then ⟨0, 1, 0, .B⟩ else ⟨0, 1, 1, .B⟩) 0] = .ok (outs, s₁) ∧
      (∀ c ∈ s₁.clientMap, c.info.clientType = .B) ∧
      s₁.findClient 2 = some r ∧ BurstEligible 0 r ∧
      s₁.doNextRequest (fun c => if c = 1 then ⟨0, 2, 0, .B⟩ else if c = 2 then ⟨0, 1, 0, .B⟩ else ⟨0, 1, 1, .B⟩) 0 =
        s₁.dispatchLadder 0 ∧
      (s₁.dispatchLadder 0).map (·.1) = .ok (.future (.fin 1)) :=
  ⟨_, _, _, _, rfl, rfl, by decide, rfl, ⟨rfl, ⟨_, rfl, .inl rfl, by decide⟩, by decide⟩, rfl,
    by decide⟩

/-- Clients 3 and 4 are switched to class A by `update_client_info`, which leaves them in the B
heaps, and emptied by `remove_by_client`, which then adjusts them in the A heaps only. Client 3
keeps its slot above client 2 in `burst_heap` with no request, so client 1 stays on top: it is
dispatched four times while client 2, of the same weight, waits, although their effective
proportion tags after the adds differ by 1. -/
theorem stale_burst_heap_starves_client :
    ∃ (s₀ s₁ s : PriorityQueueBase ℕ ℕ) (outs : List (Out ℕ ℕ)),
      init 2 600 900 360 false 0 100 1 = .ok s₀ ∧
      s₀.run [.addRequest (fun _ => ⟨0, 1, 0, .B⟩) 100 1 {} 0,
        .addRequest (fun _ => ⟨0, 1, 0, .B⟩) 300 3 {} 0,
        .addRequest (fun _ => ⟨0, 1, 0, .B⟩) 400 4 {} 0,
        .addRequest (fun _ => ⟨0, 1, 0, .B⟩) 200 2 {} 0,
        .addRequest (fun _ => ⟨0, 1, 0, .B⟩) 101 1 {} 0,
        .addRequest (fun _ => ⟨0, 1, 0, .B⟩) 102 1 {} 0,
        .addRequest (fun _ => ⟨0, 1, 0, .B⟩) 103 1 {} 0,
        .addRequest (fun _ => ⟨0, 1, 0, .B⟩) 104 1 {} 0,
        .addRequest (fun _ => ⟨0, 1, 0, .B⟩) 201 2 {} 0] = .ok (outs, s₁) ∧
      (s₁.findClient 1).map (·.effectivePropTag) = some (.fin 1) ∧
      (s₁.findClient 2).map (·.effectivePropTag) = some (.fin 2) ∧
      s₁.heaps .resv = [] ∧ s₁.heaps .deltar = [] ∧ s₁.heaps .best = [] ∧
      s₁.run [.updateClientInfo (fun c => if c = 3 ∨ c = 4 then ⟨0, 1, 0, .A⟩ else ⟨0, 1, 0, .B⟩) 3,
        .updateClientInfo (fun c => if c = 3 ∨ c = 4 then ⟨0, 1, 0, .A⟩ else ⟨0, 1, 0, .B⟩) 4,
        .removeByClient 3 false, .removeByClient 4 false,
        .pullRequest (fun c => if c = 3 ∨ c = 4 then ⟨0, 1, 0, .A⟩ else ⟨0, 1, 0, .B⟩) 0,
        .pullRequest (fun c => if c = 3 ∨ c = 4 then ⟨0, 1, 0, .A⟩ else ⟨0, 1, 0, .B⟩) 0,
        .pullRequest (fun c => if c = 3 ∨ c = 4 then ⟨0, 1, 0, .A⟩ else ⟨0, 1, 0, .B⟩) 0,
        .pullRequest (fun c => if c = 3 ∨ c = 4 then ⟨0, 1, 0, .A⟩ else ⟨0, 1, 0, .B⟩) 0] =
        .ok ([.unit, .unit, .dropped [300], .dropped [400],
          .pulled (.returning 1 100 .priority), .pulled (.returning 1 101 .priority),
          .pulled (.returning 1 102 .priority), .pulled (.returning 1 103 .priority)], s) ∧
      s.queueOf 1 = [104] ∧ s.queueOf 2 = [200, 201] :=
  ⟨_, _, _, _, rfl, rfl, by decide, by decide, rfl, rfl, rfl, rfl, by decide, by decide⟩

end PriorityQueueBase

end DmclockServer
