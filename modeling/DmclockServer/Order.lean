import DmclockServer.Membership
import DmclockServer.Compensation
import DmclockServer.Spacing

/-!
# The heaps stay heaps over runs with one callback

A roll-over that migrates a client into class R leaves its compensated info with the old class,
and `pop_process_request` then repairs the heaps of that class instead of the client's own
(`popProcessRequest_breaks_heapsOrdered`). With one callback for the whole run no client changes
class, and every operation sifts what it changes:

* a key changes only for the client an operation works on, and the operation then sifts the client
  in each heap of its class: `adjust` after any change, `demote` after a key that did not fall,
  `promote` then `demote` around `reduce_reservation_tags` (`NearHeaps`);
* on the pop path the popped client's keys do not fall in the heaps where it is demoted, as long as
  the callback's reservations and weights are not negative (`popKey_le`);
* the other moves keep every key (`SameKeys`).

`run_heapInv` carries the membership, the heap property and the callback's infos over every run
from the constructor whose operations all call one callback.
-/

namespace DmclockServer

/-! ## Keys of records -/

namespace ClientRec

variable {C R : Type}

/-- The key of a record reads only its head and its `prop_delta`. -/
theorem compareKey_congr {r r' : ClientRec C R} (hn : r'.nextRequest = r.nextRequest)
    (hp : r'.propDelta = r.propDelta) (tf : TagField) (ro : ReadyOption) (pd : Bool) :
    compareKey tf ro pd r' = compareKey tf ro pd r := by
  simp only [compareKey, compareValue, hn, hp]

theorem propDelta_reduceReservation (r : ClientRec C R) (d : ℚ) :
    (r.reduceReservation d).propDelta = r.propDelta := by
  unfold reduceReservation; split <;> rfl

/-- Taking `d` off the reservation tags changes no key on another field. -/
theorem compareKey_reduceReservation (r : ClientRec C R) (d : ℚ) {tf : TagField}
    (htf : tf ≠ .reservation) (ro : ReadyOption) (pd : Bool) :
    compareKey tf ro pd (r.reduceReservation d) = compareKey tf ro pd r := by
  cases hq : r.nextRequest with
  | none =>
    exact compareKey_congr (by simp only [reduceReservation, hq]; exact hq)
      (propDelta_reduceReservation r d) _ _ _
  | some q =>
    have hq' : (r.reduceReservation d).nextRequest =
        some { q with tag := { q.tag with reservation := q.tag.reservation - d } } := by
      simp only [reduceReservation, hq]; exact nextRequest_setHeadTag hq _
    rw [compareKey_of_nextRequest hq', compareKey_of_nextRequest hq]
    simp only [compareValue, propDelta_reduceReservation]
    cases tf <;> first | exact absurd rfl htf | rfl

/-- A record whose head `q` gave way to no head, or to a head that is not ready and no earlier on
field `tf`, with its `prop_delta` kept, has no smaller key in a heap whose ready flag does not
lower keys. -/
theorem compareKey_le_of_next {r r' : ClientRec C R} {q : ClientReq C R} {tf : TagField}
    {ro : ReadyOption} (pd : Bool) (hro : ro ≠ .lowers) (hq : r.nextRequest = some q)
    (hp : r'.propDelta = r.propDelta)
    (hnext : ∀ q', r'.nextRequest = some q' →
      q'.tag.ready = false ∧ q.tag.field tf ≤ q'.tag.field tf) :
    compareKey tf ro pd r ≤ compareKey tf ro pd r' := by
  rw [compareKey_of_nextRequest hq]
  cases hq' : r'.nextRequest with
  | none => simp [compareKey, hq']
  | some q' =>
    obtain ⟨hrd, hle⟩ := hnext q' hq'
    have hv : compareValue tf pd r q.tag ≤ compareValue tf pd r' q'.tag := by
      unfold compareValue
      rw [hp]
      split
      · exact Dbl.addQ_le_addQ_right hle _
      · exact hle
    rw [compareKey_of_nextRequest hq', toLex_le_toLex, hrd]
    cases ro <;> cases q.tag.ready <;> simp [readyRank, hv] at hro ⊢

end ClientRec

namespace RequestTag

/-- With a rate that is not negative, a field of the constructed tag is no earlier than the
previous tag's; a zero rate pins it to `max_tag`. -/
theorem le_tagCalc_of_nonneg {time increment : ℚ} {prev : Dbl} {dist : ℕ}
    (hinc : 0 ≤ increment) : prev ≤ tagCalc time prev increment dist true := by
  unfold tagCalc
  split
  · simp
  · refine le_trans (Dbl.le_addQ_of_nonneg prev ?_) (le_max_right _ _)
    split
    · exact mul_nonneg hinc (Nat.cast_nonneg _)
    · exact hinc

/-- A constructed tag is not ready, and with a reservation and a weight that are not negative its
reservation and proportion fields are no earlier than the previous tag's. -/
theorem le_build {info : ClientInfo} (hr : 0 ≤ info.reservation) (hw : 0 ≤ info.weight)
    (prev : RequestTag) (delta rho : ℕ) (time at' : ℚ) :
    (build prev info delta rho time at').ready = false ∧
      prev.reservation ≤ (build prev info delta rho time at').reservation ∧
      prev.proportion ≤ (build prev info delta rho time at').proportion :=
  ⟨rfl, le_tagCalc_of_nonneg (ClientInfo.inv_nonneg hr),
    le_tagCalc_of_nonneg (ClientInfo.inv_nonneg hw)⟩

end RequestTag

namespace PriorityQueueBase

variable {C R : Type} [LinearOrder C] {s s' s'' t t' : PriorityQueueBase C R}

/-! ## Moves that keep every key -/

section Keys

/-- Two states with the same heaps, branching and keys. -/
structure SameKeys (s s' : PriorityQueueBase C R) : Prop where
  heaps_eq : s'.heaps = s.heaps
  branching_eq : s'.branching = s.branching
  heapKey_eq : s'.heapKey = s.heapKey

theorem SameKeys.rfl : SameKeys s s := ⟨Eq.refl _, Eq.refl _, Eq.refl _⟩

theorem SameKeys.trans (h₁ : SameKeys s s') (h₂ : SameKeys s' s'') : SameKeys s s'' :=
  ⟨h₂.heaps_eq.trans h₁.heaps_eq, h₂.branching_eq.trans h₁.branching_eq,
    h₂.heapKey_eq.trans h₁.heapKey_eq⟩

theorem HeapsOrdered.sameKeys (ho : s.HeapsOrdered) (h : SameKeys s s') : s'.HeapsOrdered := by
  intro hs
  rw [h.heaps_eq, h.branching_eq, h.heapKey_eq]
  exact ho hs

theorem sameKeys_of_clientMap (hm : s'.clientMap = s.clientMap) (hh : s'.heaps = s.heaps)
    (hb : s'.branching = s.branching) : SameKeys s s' :=
  ⟨hh, hb, heapKey_eq_of_clientMap hm⟩

/-- Mapping the records by a function that keeps each record's id, head and `prop_delta` keeps
every key. -/
theorem heapKey_map {g : ClientRec C R → ClientRec C R}
    (hg : ∀ r, (g r).client = r.client ∧ (g r).nextRequest = r.nextRequest ∧
      (g r).propDelta = r.propDelta)
    (hm : s'.clientMap = s.clientMap.map g) : s'.heapKey = s.heapKey := by
  funext h a
  have hf : s'.findClient a = (s.findClient a).map g := by
    have hp : ((fun r : ClientRec C R => decide (r.client = a)) ∘ g) =
        fun r => decide (r.client = a) := by
      funext r; simp [(hg r).1]
    simp only [findClient, hm, List.find?_map, hp]
  unfold heapKey
  rw [hf]
  cases s.findClient a with
  | none => rfl
  | some r => exact ClientRec.compareKey_congr (hg r).2.1 (hg r).2.2 _ _ _

theorem sameKeys_modifyClient {c : C} {f : ClientRec C R → ClientRec C R}
    (hf : ∀ r, (f r).client = r.client ∧ (f r).nextRequest = r.nextRequest ∧
      (f r).propDelta = r.propDelta) : SameKeys s (s.modifyClient c f) :=
  ⟨rfl, rfl, heapKey_map (g := fun r => if r.client = c then f r else r)
    (fun r => by dsimp only; split <;> simp [hf]) rfl⟩

theorem sameKeys_addTotalWgtAndUpdateClientRes (w : ℚ) :
    SameKeys s (s.addTotalWgtAndUpdateClientRes w) :=
  ⟨rfl, rfl, heapKey_map (g := fun r =>
      { r with resource := Dbl.quot (s.systemCapacity * r.info.weight * s.winSize) (s.totalWgt + w) })
    (fun _ => ⟨rfl, rfl, rfl⟩) rfl⟩

@[simp] theorem heapKey_heapAdjust (h : HeapSel) (c : C) : (s.heapAdjust h c).heapKey = s.heapKey :=
  heapKey_setHeap _ _

@[simp] theorem heapKey_heapPromote (h : HeapSel) (c : C) :
    (s.heapPromote h c).heapKey = s.heapKey :=
  heapKey_setHeap _ _

@[simp] theorem heapKey_heapDemote (h : HeapSel) (c : C) : (s.heapDemote h c).heapKey = s.heapKey :=
  heapKey_setHeap _ _

/-- A record change that keeps the id, the class, the head and `prop_delta`, such as a counter
update, keeps the invariants of the ladder. -/
theorem LadderInv.modifyClient_keys (hi : s.LadderInv) {c : C} {f : ClientRec C R → ClientRec C R}
    (hf : ∀ r, (f r).client = r.client ∧ (f r).info.clientType = r.info.clientType ∧
      (f r).nextRequest = r.nextRequest ∧ (f r).propDelta = r.propDelta) :
    (s.modifyClient c f).LadderInv :=
  ⟨hi.classMembership.sameMembers (sameMembers_modifyClient fun r => ⟨(hf r).1, (hf r).2.1⟩),
    hi.heapsOrdered.sameKeys (sameKeys_modifyClient fun r => ⟨(hf r).1, (hf r).2.2⟩),
    hi.branching_pos⟩

/-- The heaps are heaps: they branch, and each has the heap property under its comparator. -/
structure HeapsValid (s : PriorityQueueBase C R) : Prop where
  branching_pos : 0 < s.branching
  heapsOrdered : s.HeapsOrdered

theorem HeapsValid.sameKeys (hv : s.HeapsValid) (h : SameKeys s s') : s'.HeapsValid :=
  ⟨h.branching_eq ▸ hv.branching_pos, hv.heapsOrdered.sameKeys h⟩

theorem LadderInv.heapsValid (hi : s.LadderInv) : s.HeapsValid :=
  ⟨hi.branching_pos, hi.heapsOrdered⟩

theorem HeapsValid.ladderInv (hv : s.HeapsValid) (hcm : s.ClassMembership) : s.LadderInv :=
  ⟨hcm, hv.heapsOrdered, hv.branching_pos⟩

/-- A move that keeps the membership and every key keeps the invariants of the ladder. -/
theorem LadderInv.of_same (hi : s.LadderInv) (hm : SameMembers s s') (hk : SameKeys s s') :
    s'.LadderInv :=
  ⟨hi.classMembership.sameMembers hm, hi.heapsOrdered.sameKeys hk,
    hk.branching_eq ▸ hi.branching_pos⟩

end Keys

/-! ## One client's keys changed -/

section Near

variable {x : C} {hs : List HeapSel} {k : HeapSel → C → WithTop (ℕ ×ₗ Dbl)}

omit [LinearOrder C] in
@[simp] theorem setHeap_setHeap (h : HeapSel) (l l' : List C) :
    (t.setHeap h l).setHeap h l' = t.setHeap h l' := by
  unfold setHeap
  congr 1
  funext h'
  by_cases hh : h' = h <;> simp [hh]

@[simp] theorem heapKey_adjustClass (cls : ClientType) (c : C) :
    (t.adjustClass cls c).heapKey = t.heapKey :=
  heapKey_eq_of_clientMap (clientMap_adjustClass t cls)

/-- The heaps of `t` after the record of client `x` changed, before `x` is sifted: every heap has
the heap property under `k`, a key that agrees with `t`'s at every client but `x`, and `x` is in
no heap outside `hs`. -/
structure NearHeaps (x : C) (hs : List HeapSel) (k : HeapSel → C → WithTop (ℕ ×ₗ Dbl))
    (t : PriorityQueueBase C R) : Prop where
  branching_pos : 0 < t.branching
  nodup : ∀ h, (t.heaps h).Nodup
  ordered : ∀ h, IndIntruHeap.Ordered t.branching (k h) (t.heaps h)
  agree : ∀ h a, a ≠ x → t.heapKey h a = k h a
  outside : ∀ h, h ∉ hs → x ∉ t.heaps h

theorem LadderInv.nearHeaps (hi : t.LadderInv) (x : C) : NearHeaps x HeapSel.all t.heapKey t :=
  ⟨hi.branching_pos, hi.classMembership.nodup, hi.heapsOrdered, fun _ _ _ => rfl,
    fun h hh => absurd (HeapSel.mem_all h) hh⟩

/-- With the membership, `x` is in no heap outside its class. -/
theorem NearHeaps.reclass (hn : NearHeaps x hs k t) (hcm : t.ClassMembership)
    {r : ClientRec C R} (hr : t.findClient x = some r) :
    NearHeaps x (HeapSel.ofClass r.info.clientType) k t :=
  ⟨hn.branching_pos, hn.nodup, hn.ordered, hn.agree,
    fun h hh hx => hh ((hcm.mem_heaps_iff hr h).mp hx)⟩

/-- Once `x` is sifted in every heap of `hs`, every heap has the heap property. -/
theorem NearHeaps.heapsValid (hn : NearHeaps x hs k t) (hk : ∀ h ∈ hs, k h = t.heapKey h) :
    t.HeapsValid := by
  refine ⟨hn.branching_pos, fun h => ?_⟩
  by_cases hh : h ∈ hs
  · rw [← hk h hh]; exact hn.ordered h
  · exact (hn.ordered h).congr fun a ha =>
      hn.agree h a (ne_of_mem_of_not_mem ha (hn.outside h hh))

/-- Moves that keep the heaps, the branching, and the keys of every client but `x`. -/
theorem NearHeaps.congr (hn : NearHeaps x hs k t) (hh : t'.heaps = t.heaps)
    (hb : t'.branching = t.branching) (hk : ∀ h a, a ≠ x → t'.heapKey h a = t.heapKey h a) :
    NearHeaps x hs k t' :=
  ⟨hb ▸ hn.branching_pos, hh ▸ hn.nodup, by rw [hh, hb]; exact hn.ordered,
    fun h a ha => (hk h a ha).trans (hn.agree h a ha), hh ▸ hn.outside⟩

theorem NearHeaps.sameKeys (hn : NearHeaps x hs k t) (h : SameKeys t t') : NearHeaps x hs k t' :=
  hn.congr h.heaps_eq h.branching_eq fun _ _ _ => by rw [h.heapKey_eq]

theorem NearHeaps.modifyClient (hn : NearHeaps x hs k t) {f : ClientRec C R → ClientRec C R}
    (hf : ∀ r, r.client = x → (f r).client = x) : NearHeaps x hs k (t.modifyClient x f) :=
  hn.congr rfl rfl fun _ _ ha => by rw [heapKey_modifyClient hf, if_neg ha]

/-- A sift of heap `h₀` leaves a permutation of it with the heap property under `t`'s key. -/
theorem NearHeaps.setHeap (hn : NearHeaps x hs k t) {h₀ : HeapSel} {l : List C}
    (hp : l.Perm (t.heaps h₀)) (ho : IndIntruHeap.Ordered t.branching (t.heapKey h₀) l) :
    NearHeaps x hs (Function.update k h₀ (t.heapKey h₀)) (t.setHeap h₀ l) := by
  refine ⟨hn.branching_pos, fun h => ?_, fun h => ?_, fun h a ha => ?_, fun h hh hx => ?_⟩
  all_goals by_cases h₁ : h = h₀
  · subst h₁; simpa using hp.nodup_iff.mpr (hn.nodup h)
  · simpa [h₁] using hn.nodup h
  · subst h₁; simpa using ho
  · simpa [h₁] using hn.ordered h
  · subst h₁; simp
  · simpa [h₁] using hn.agree h a ha
  · subst h₁; simp only [heaps_setHeap, if_true] at hx; exact hn.outside _ hh (hp.subset hx)
  · simp only [heaps_setHeap, h₁, if_false] at hx; exact hn.outside h hh hx

theorem NearHeaps.heapAdjust (hn : NearHeaps x hs k t) (h₀ : HeapSel) :
    NearHeaps x hs (Function.update k h₀ (t.heapKey h₀)) (t.heapAdjust h₀ x) :=
  hn.setHeap (IndIntruHeap.adjust_perm _ _ _ _) (by
    rw [heapLt_eq_ltOf]
    exact IndIntruHeap.adjust_ordered hn.branching_pos (hn.ordered h₀) (hn.nodup h₀) (hn.agree h₀))

/-- `demote` sifts a key of `x` that did not fall. -/
theorem NearHeaps.heapDemote (hn : NearHeaps x hs k t) (h₀ : HeapSel)
    (hle : k h₀ x ≤ t.heapKey h₀ x) :
    NearHeaps x hs (Function.update k h₀ (t.heapKey h₀)) (t.heapDemote h₀ x) :=
  hn.setHeap (IndIntruHeap.demote_perm _ _ _ _) (by
    rw [heapLt_eq_ltOf]
    exact IndIntruHeap.demote_ordered hn.branching_pos (hn.ordered h₀) (hn.nodup h₀)
      (hn.agree h₀) hle)

/-- `promote` then `demote` sift any key of `x`. -/
theorem NearHeaps.heapPromote_heapDemote (hn : NearHeaps x hs k t) (h₀ : HeapSel) :
    NearHeaps x hs (Function.update k h₀ (t.heapKey h₀))
      ((t.heapPromote h₀ x).heapDemote h₀ x) := by
  have e : (t.heapPromote h₀ x).heapDemote h₀ x = t.setHeap h₀
      (IndIntruHeap.demote t.branching (IndIntruHeap.ltOf (t.heapKey h₀))
        (IndIntruHeap.promote t.branching (IndIntruHeap.ltOf (t.heapKey h₀)) (t.heaps h₀) x) x) := by
    simp [PriorityQueueBase.heapDemote, PriorityQueueBase.heapPromote, heapLt_eq_ltOf]
  rw [e]
  exact hn.setHeap ((IndIntruHeap.demote_perm _ _ _ _).trans (IndIntruHeap.promote_perm _ _ _ _))
    (IndIntruHeap.demote_promote_ordered hn.branching_pos (hn.ordered h₀) (hn.nodup h₀)
      (hn.agree h₀))

/-- `adjust` in each heap of a list. -/
theorem NearHeaps.forHeaps_heapAdjust (l : List HeapSel) (hn : NearHeaps x hs k t) :
    NearHeaps x hs (fun h => if h ∈ l then t.heapKey h else k h)
      (t.forHeaps l fun t h => t.heapAdjust h x) := by
  induction l generalizing t k with
  | nil => simpa [forHeaps] using hn
  | cons h₀ l ih =>
    have e : (fun h => if h ∈ h₀ :: l then t.heapKey h else k h) = fun h =>
        if h ∈ l then (t.heapAdjust h₀ x).heapKey h else Function.update k h₀ (t.heapKey h₀) h := by
      funext h
      by_cases h₁ : h = h₀
      · subst h₁; by_cases h₂ : h ∈ l <;> simp [h₂]
      · by_cases h₂ : h ∈ l <;> simp [h₁, h₂]
    rw [e]
    exact ih (hn.heapAdjust h₀)

/-- `adjust` in every heap of `x`'s class restores the heap property. -/
theorem NearHeaps.adjustClass_heapsValid {cls : ClientType}
    (hn : NearHeaps x (HeapSel.ofClass cls) k t) : (t.adjustClass cls x).HeapsValid :=
  (hn.forHeaps_heapAdjust _).heapsValid fun h hh => by
    rw [if_pos hh]; exact (congrFun (heapKey_adjustClass (t := t) cls x) h).symm

theorem NearHeaps.adjustClass (hn : NearHeaps x hs k t) (cls : ClientType) :
    ∃ k', NearHeaps x hs k' (t.adjustClass cls x) :=
  ⟨_, hn.forHeaps_heapAdjust _⟩

end Near

/-! ## `do_add_request` -/

section Add

/-- A record without requests sorts last, as a client without a record does. -/
theorem heapKey_insertClient_init {c : C} (hc : t.findClient c = none) (info : ClientInfo)
    (n : ℕ) : (t.insertClient (ClientRec.init c info n)).heapKey = t.heapKey := by
  funext h a
  unfold heapKey
  by_cases ha : a = c
  · rw [ha, findClient_insertClient_self (s := t) (c := c) (ClientRec.init c info n) rfl hc, hc]
    rfl
  · rw [findClient_insertClient_ne (s := t) (ClientRec.init c info n) (Ne.symm ha)]

theorem HeapsOrdered.forHeaps_heapPush (ho : t.HeapsOrdered) (l : List HeapSel) (c : C) :
    (t.forHeaps l fun t h => t.heapPush h c).HeapsOrdered := by
  induction l generalizing t with
  | nil => exact ho
  | cons h₀ l ih =>
    refine ih fun h => ?_
    by_cases h₁ : h = h₀
    · subst h₁
      simpa [heapPush, heapLt_eq_ltOf] using IndIntruHeap.push_ordered (ho h) c
    · simpa [heapPush, h₁] using ho h

/-- Creating a client keeps the invariants of the ladder: the client goes into the heaps of its
class without a request, so it sorts last there, before and after its record is inserted. -/
theorem LadderInv.createClient (hi : t.LadderInv) (hm : t.Members) {c : C}
    (hc : t.findClient c = none) (info : ClientInfo) : (t.createClient info c).LadderInv := by
  have hb : (t.createClient info c).branching = t.branching := by
    unfold PriorityQueueBase.createClient
    dsimp only
    split <;> exact foldl_keeps t (·.branching) _ fun _ _ => rfl
  refine ⟨(hm.createClient hc info).classMembership, ?_, hb ▸ hi.branching_pos⟩
  have hp := hi.heapsOrdered.forHeaps_heapPush (HeapSel.ofClass info.clientType) c
  generalize hX : t.forHeaps (HeapSel.ofClass info.clientType) (fun s h => s.heapPush h c) = X at hp
  have hXm : X.clientMap = t.clientMap := hX ▸ foldl_keeps t (·.clientMap) _ fun _ _ => rfl
  have hXc : X.findClient c = none := by rwa [findClient, hXm, ← findClient]
  have hY : SameKeys X ((X.insertClient (ClientRec.init c info X.tick)).setCompensated c
      ⟨info.reservation, info.weight, info.limit, info.clientType⟩) :=
    ⟨rfl, rfl, (heapKey_eq_of_clientMap rfl).trans (heapKey_insertClient_init hXc info _)⟩
  unfold PriorityQueueBase.createClient
  rw [hX]
  dsimp only
  split
  · exact (hp.sameKeys hY).sameKeys (sameKeys_addTotalWgtAndUpdateClientRes _)
  · exact hp.sameKeys hY

theorem NearHeaps.realignIdle {x : C} {hs : List HeapSel} {k : HeapSel → C → WithTop (ℕ ×ₗ Dbl)}
    (hn : NearHeaps x hs k t) (time : ℚ) : NearHeaps x hs k (t.realignIdle x time) := by
  unfold PriorityQueueBase.realignIdle
  split
  · split
    · exact hn.modifyClient fun _ h => h
    · exact hn
  · exact hn

/-- The first part of `do_add_request` changes at most the keys of the client it admits. -/
theorem LadderInv.admitClient (hi : t.LadderInv) (hm : t.Members) (infoF : C → ClientInfo) (c : C)
    (time : ℚ) : ∃ k, NearHeaps c HeapSel.all k (t.admitClient infoF c time) := by
  have ht : ({ t with tick := t.tick + 1 } : PriorityQueueBase C R).LadderInv :=
    hi.of_same ⟨rfl, fun _ => List.Perm.refl _, rfl⟩ (sameKeys_of_clientMap rfl rfl rfl)
  unfold PriorityQueueBase.admitClient
  dsimp only
  split
  · exact ⟨_, (ht.nearHeaps c).realignIdle time⟩
  · exact ⟨_, ((ht.createClient (hm.sameMembers ⟨rfl, fun _ => List.Perm.refl _, rfl⟩)
      (Option.not_isSome_iff_eq_none.mp ‹_›) _).nearHeaps c).realignIdle time⟩

/-- Queueing a request changes only the client's keys, and the last `adjust` in the heaps of its
class sifts them. -/
theorem NearHeaps.queueRequest {x : C} {client : ClientRec C R}
    {k : HeapSel → C → WithTop (ℕ ×ₗ Dbl)}
    (hn : NearHeaps x (HeapSel.ofClass client.info.clientType) k t) (hx : client.client = x)
    (tag : RequestTag) (request : R) (p : ReqParams) :
    (t.queueRequest client tag request p).HeapsValid := by
  subst hx
  unfold PriorityQueueBase.queueRequest
  dsimp only
  have hn₁ := hn.modifyClient (f := fun _ => client.addRequest tag client.client request)
    fun _ _ => rfl
  obtain ⟨k', hn₂⟩ : ∃ k', NearHeaps client.client (HeapSel.ofClass client.info.clientType) k'
      (if (client.addRequest tag client.client request).requests.length = 1 then
        (t.modifyClient client.client fun _ => client.addRequest tag client.client request).adjustClass
          client.info.clientType client.client
      else t.modifyClient client.client fun _ => client.addRequest tag client.client request) := by
    split
    · exact hn₁.adjustClass _
    · exact ⟨_, hn₁⟩
  exact (hn₂.modifyClient (f := fun r => { r with curRho := p.rho, curDelta := p.delta })
    fun _ h => h).adjustClass_heapsValid

/-- **`do_add_request` keeps the heaps heaps**, whatever the callback. -/
theorem doAddRequest_heapsValid (hi : t.LadderInv) (hm : t.Members) {infoF : C → ClientInfo}
    {r : R} {c : C} {p : ReqParams} {time : ℚ} (h : t.doAddRequest infoF r c p time = .ok t') :
    t'.HeapsValid := by
  obtain ⟨k, hn⟩ := hi.admitClient hm infoF c time
  unfold PriorityQueueBase.doAddRequest at h
  dsimp only at h
  split at h
  · cases h
  · rename_i client hclient
    obtain ⟨⟨client', tag⟩, htag, rfl⟩ := except_map_eq_ok.mp h
    obtain ⟨hcl, hk⟩ := ClientRec.client_info_of_core (newRequestTag_core htag)
    have hn' := hn.reclass (hm.admitClient infoF c time).classMembership hclient
    rw [← hk] at hn'
    exact hn'.queueRequest (hcl.trans (findClient_client _ hclient)) tag r p

end Add

/-! ## `pop_process_request` -/

section Pop

variable {info : C → ClientInfo}

/-- `client_info_wrapper` gives a member the class of its record, and a reservation and a weight
that are not negative when the callback's are not. -/
theorem InfoFaithful.wrapper_spec (hi : InfoFaithful info t)
    (hrates : ∀ c, 0 ≤ (info c).reservation ∧ 0 ≤ (info c).weight) {r : ClientRec C R}
    (hr : r ∈ t.clientMap) {i : ClientInfo} (h : t.clientInfoWrapper r = .ok i) :
    0 ≤ i.reservation ∧ 0 ≤ i.weight ∧ i.clientType = r.info.clientType := by
  rw [hi.clientInfoWrapper_eq hr] at h
  cases h
  rw [hi.infoCurrent r hr]
  split
  · exact ⟨add_nonneg (hrates _).1 (Nat.cast_nonneg _), (hrates _).2, (‹_› : _ = _).symm⟩
  · exact ⟨(hrates _).1, (hrates _).2, rfl⟩

/-- The pop path gives the new head, if there is one, the tag constructed from the popped tag
with the info `client_info_wrapper` gives, and keeps `prop_delta`. -/
theorem tagNewHead_next {top top' : ClientRec C R} {tag : RequestTag}
    (h : t.tagNewHead top tag = .ok top') :
    top'.propDelta = top.propDelta ∧ ∀ q', top'.nextRequest = some q' →
      ∃ i, t.clientInfoWrapper top = .ok i ∧
        ∃ delta rho time at', q'.tag = RequestTag.build tag i delta rho time at' := by
  unfold tagNewHead at h
  split at h
  · rename_i hn
    cases h
    exact ⟨rfl, fun q' hq' => by rw [hn] at hq'; cases hq'⟩
  · rename_i nf hnf
    obtain ⟨i, hw, h⟩ := except_bind_eq_ok.mp h
    obtain ⟨tg, ht, h⟩ := except_bind_eq_ok.mp h
    cases h
    refine ⟨rfl, fun q' hq' => ⟨i, hw, top.curDelta, top.curRho, nf.tag.arrival,
      t.anticipationTimeout, ?_⟩⟩
    rw [show ((top.setHeadTag tg).updateReqTag tg t.tick).nextRequest =
      (top.setHeadTag tg).nextRequest from rfl, ClientRec.nextRequest_setHeadTag hnf tg] at hq'
    cases hq'
    exact RequestTag.make_eq_ok ht

/-- **The pop path does not lower the popped client's key where it demotes the client.** With
the callback's reservations and weights not negative, the new head, if any, is not ready and no
earlier than the popped one in its reservation and proportion tags. -/
theorem popKey_le (hi : InfoFaithful info t)
    (hrates : ∀ c, 0 ≤ (info c).reservation ∧ 0 ≤ (info c).weight) {top top' : ClientRec C R}
    {q : ClientReq C R} (htop : top ∈ t.clientMap) (hq : top.nextRequest = some q)
    (htag : t.tagNewHead top.popRequest q.tag = .ok top') {h : HeapSel}
    (hro : h.readyOpt ≠ .lowers) :
    compareKey h.tagField h.readyOpt h.usePropDelta top ≤
      compareKey h.tagField h.readyOpt h.usePropDelta top' := by
  obtain ⟨hpd, hnext⟩ := tagNewHead_next htag
  refine ClientRec.compareKey_le_of_next _ hro hq hpd fun q' hq' => ?_
  obtain ⟨i, hw, _, _, _, _, he⟩ := hnext q' hq'
  obtain ⟨hr, hw', -⟩ := hi.wrapper_spec hrates htop hw
  obtain ⟨hrd, hres, hprop⟩ := RequestTag.le_build hr hw' q.tag _ _ _ _
  rw [he]
  refine ⟨hrd, ?_⟩
  cases h <;> first | exact absurd rfl hro | exact hres | exact hprop

theorem heapKey_modifyClient_reduce {x : C} (d : ℚ) {h : HeapSel}
    (hh : h.tagField ≠ .reservation) :
    (t.modifyClient x (·.reduceReservation d)).heapKey h = t.heapKey h := by
  funext a
  rw [heapKey_modifyClient fun r hr =>
    (congrArg Prod.fst (ClientRec.core_reduceReservation r d)).trans hr]
  split
  · subst a
    cases hr : t.findClient x <;>
      simp [heapKey, hr, ClientRec.compareKey_reduceReservation _ _ hh]
  · rfl

/-- The heap repair of `pop_process_request`, on the heaps of the client's class, restores the
heap property after keys that did not fall in the heaps it demotes in. -/
theorem NearHeaps.repairHeaps {x : C} {k : HeapSel → C → WithTop (ℕ ×ₗ Dbl)} {cls : ClientType}
    {isDelta : Bool} {top : ClientRec C R} (hn : NearHeaps x (HeapSel.ofClass cls) k t)
    (hx : top.client = x) (hle : ∀ h : HeapSel, h.readyOpt ≠ .lowers → k h x ≤ t.heapKey h x)
    (h : t.repairHeaps top cls isDelta = .ok t') : t'.HeapsValid := by
  subst hx
  cases cls with
  | R =>
    obtain ⟨u, hu, rfl⟩ := except_map_eq_ok.mp h
    have hd := hle .deltar (by decide)
    cases isDelta with
    | false =>
      cases hu
      exact (((hn.heapDemote .resv (hle .resv (by decide))).heapDemote .deltar
        (by simpa using hd)).heapAdjust .rLimit).heapsValid (by simp [HeapSel.ofClass])
    | true =>
      simp only [if_true, reduceReservationTags] at hu
      generalize (if top.info.clientType = .R then t.compensated top.client else some top.info) = i
        at hu
      cases i with
      | none => cases hu
      | some i =>
        cases hu
        have hkd := heapKey_modifyClient_reduce (t := t) (x := top.client) i.reservationInv
          (h := .deltar) (by decide)
        exact ((((hn.modifyClient fun r hr =>
          (congrArg Prod.fst (ClientRec.core_reduceReservation r _)).trans hr).heapPromote_heapDemote
            .resv).heapDemote .deltar (by simpa [hkd] using hd)).heapAdjust .rLimit).heapsValid
            (by simp [HeapSel.ofClass])
  | B =>
    cases h
    exact ((hn.heapDemote .burst (hle .burst (by decide))).heapAdjust .limit).heapsValid
      (by simp [HeapSel.ofClass])
  | A | O =>
    cases h
    exact ((hn.heapDemote .best (hle .best (by decide))).heapAdjust .bestLimit).heapsValid
      (by simp [HeapSel.ofClass])

/-- **`pop_process_request` keeps the heaps heaps** when the records hold the callback's infos
and its reservations and weights are not negative: the class `client_info_wrapper` reports is
then the client's own. -/
theorem popProcessRequest_heapsValid (hi : t.LadderInv) (hm : t.Members)
    (hf : InfoFaithful info t) (hrates : ∀ c, 0 ≤ (info c).reservation ∧ 0 ≤ (info c).weight)
    {hs : HeapSel} {isDelta : Bool} {res : C × R}
    (h : t.popProcessRequest hs isDelta = .ok (res, t')) : t'.HeapsValid := by
  unfold PriorityQueueBase.popProcessRequest at h
  split at h
  · cases h
  rename_i top htop
  split at h
  · cases h
  rename_i q hq
  obtain ⟨top', htag, h⟩ := except_bind_eq_ok.mp h
  obtain ⟨i, hw, h⟩ := except_bind_eq_ok.mp h
  obtain ⟨t₂, hrep, h⟩ := except_bind_eq_ok.mp h
  cases h
  have hx := topRec_findClient t htop
  obtain ⟨hcl, hk⟩ := ClientRec.client_info_of_core (tagNewHead_core htag)
  have hx₁ : (t.modifyClient top.client fun _ => top').findClient top.client = some top' := by
    rw [findClient_modifyClient t (c := top.client) (fun _ _ => hcl), if_pos rfl, hx]
    rfl
  have hf₁ : InfoFaithful info (t.modifyClient top.client fun _ => top') :=
    hf.keeps (keepsInfo_modifyClient fun _ _ _ => ⟨top, findClient_mem _ hx,
      (ClientRec.qos_eq_of_core (tagNewHead_core htag)).trans (Eq.refl top.qos)⟩)
  obtain ⟨-, -, hcls⟩ := hf₁.wrapper_spec hrates (findClient_mem _ hx₁) hw
  rw [hcls] at hrep
  refine (((hi.nearHeaps top.client).modifyClient fun _ _ => hcl).reclass
    (hm.modifyClient_const hx hcl hk).classMembership hx₁).repairHeaps hcl (fun h hro => ?_) hrep
  rw [heapKey_of_findClient hx, heapKey_of_findClient hx₁]
  exact popKey_le hf hrates (findClient_mem _ hx) hq htag hro

end Pop

/-! ## The removals and `do_clean` -/

section Remove

theorem sameKeys_modifyClient_self {c : C} {r : ClientRec C R} (hr : t.findClient c = some r) :
    SameKeys t (t.modifyClient c fun _ => r) := by
  refine ⟨rfl, rfl, ?_⟩
  funext h a
  rw [heapKey_modifyClient fun _ _ => findClient_client t hr]
  split
  · subst a; rw [hr, heapKey_of_findClient hr]; rfl
  · rfl

theorem removeByClient_heapsValid (hi : t.LadderInv) (c : C) (rev : Bool) :
    (t.removeByClient c rev).1.HeapsValid := by
  unfold PriorityQueueBase.removeByClient
  split
  · exact hi.heapsValid
  · rename_i client hclient
    dsimp only
    have hv := (((hi.nearHeaps c).reclass hi.classMembership hclient).modifyClient
      (f := fun r => { r with requests := [] }) fun _ h => h).adjustClass_heapsValid
    split
    · exact hv.sameKeys (sameKeys_addTotalWgtAndUpdateClientRes _)
    · exact hv

/-- The filter's pass over one client: a record it changed is sifted in the heaps of its class, and
one it did not change is put back as it was. -/
theorem filterClient_heapsValid (hi : t.LadderInv) (f : List R → R → Bool) (vb : Bool)
    (acc : Bool × (List R × List (C × R))) (c : C) : (t.filterClient f vb acc c).1.HeapsValid := by
  unfold PriorityQueueBase.filterClient
  split
  · exact hi.heapsValid
  · rename_i client hclient
    have hn := (hi.nearHeaps c).reclass hi.classMembership hclient
    have hcl : (client.removeByReqFilter (accumFilter f c) acc.2 vb).1.client = c :=
      (findClient_client t hclient :)
    have hk : (client.removeByReqFilter (accumFilter f c) acc.2 vb).1.info.clientType =
      client.info.clientType := rfl
    have hself := ClientRec.removeByReqFilter_eq_self (accumFilter f c) client acc.2 vb
    dsimp only
    generalize client.removeByReqFilter (accumFilter f c) acc.2 vb = res at hcl hk hself ⊢
    split
    · rw [← hk] at hn
      exact (hn.modifyClient (f := fun _ => res.1) fun _ _ => hcl).adjustClass_heapsValid
    · rw [hself (Bool.eq_false_iff.mpr ‹_›)]
      exact hi.heapsValid.sameKeys (sameKeys_modifyClient_self hclient)

theorem removeByReqFilter_heapsValid (hi : t.LadderInv) (hm : t.Members) (f : List R → R → Bool)
    (vb : Bool) : (t.removeByReqFilter f vb).1.HeapsValid :=
  (List.foldlRecOn (motive := fun acc => Members acc.1 ∧ acc.1.HeapsValid) _ _ _
    ⟨hm, hi.heapsValid⟩
    fun (acc : PriorityQueueBase C R × Bool × (List R × List (C × R))) h c _ =>
      ⟨h.1.filterClient f vb acc.2 c,
        filterClient_heapsValid (h.2.ladderInv h.1.classMembership) f vb acc.2 c⟩).2

theorem HeapsValid.forHeaps_heapDelete (hv : t.HeapsValid) (l : List HeapSel) (c : C) :
    (t.forHeaps l fun t h => t.heapDelete h c).HeapsValid := by
  induction l generalizing t with
  | nil => exact hv
  | cons h₀ l ih =>
    refine ih ⟨hv.branching_pos, fun h => ?_⟩
    by_cases h₁ : h = h₀
    · subst h₁
      simpa [heapDelete, heapLt_eq_ltOf] using
        IndIntruHeap.deleteFromHeap_ordered hv.branching_pos (hv.heapsOrdered h) c
    · simpa [heapDelete, h₁] using hv.heapsOrdered h

/-- Erasing the record of a client that is in no heap keeps the heaps heaps. -/
theorem HeapsValid.eraseClient (hv : t.HeapsValid) {c : C} (hc : ∀ h, c ∉ t.heaps h) :
    (t.eraseClient c).HeapsValid := by
  refine ⟨hv.branching_pos, fun h => (hv.heapsOrdered h).congr fun a ha => ?_⟩
  simp only [heapKey, findClient_eraseClient, if_neg (ne_of_mem_of_not_mem ha (hc h))]

theorem cleanClient_heapsValid (hi : t.LadderInv) (hm : t.Members) (e i : ℕ) (c : C) :
    (t.cleanClient e i c).HeapsValid := by
  unfold PriorityQueueBase.cleanClient
  split
  · exact hi.heapsValid
  · rename_i r hr
    have hout (h : HeapSel) : c ∉ (t.deleteFromHeaps r).heaps h := fun hc => by
      have := (hm.eraseClient hr).classMembership.2 h (HeapSel.mem_all h) c hc
      simp only [PriorityQueueBase.eraseClient, clientMap_deleteFromHeaps, List.mem_map,
        List.mem_filter, decide_eq_true_eq] at this
      obtain ⟨a, ⟨-, hne⟩, heq⟩ := this
      exact hne heq
    have herase := (hi.heapsValid.forHeaps_heapDelete _ r.client).eraseClient hout
    split
    · dsimp only
      split
      · exact herase
      · split
        · exact herase.sameKeys (sameKeys_addTotalWgtAndUpdateClientRes _)
        · exact herase
    · split
      · exact hi.heapsValid.sameKeys (sameKeys_modifyClient fun _ => ⟨rfl, rfl, rfl⟩)
      · exact hi.heapsValid

theorem doClean_heapsValid (hi : t.LadderInv) (hm : t.Members) {now : ℚ}
    (h : t.doClean now = .ok t') : t'.HeapsValid := by
  unfold doClean at h
  obtain ⟨⟨pts, ep⟩, -, h⟩ := except_bind_eq_ok.mp h
  cases h
  have hi₀ : ({ t with cleanMarkPoints := pts } : PriorityQueueBase C R).LadderInv :=
    hi.of_same ⟨rfl, fun _ => List.Perm.refl _, rfl⟩ (sameKeys_of_clientMap rfl rfl rfl)
  have hm₀ : Members ({ t with cleanMarkPoints := pts } : PriorityQueueBase C R) :=
    hm.sameMembers ⟨rfl, fun _ => List.Perm.refl _, rfl⟩
  split
  · exact (List.foldlRecOn (motive := fun u : PriorityQueueBase C R => u.Members ∧ u.HeapsValid)
      _ _ _
      ⟨hm₀, hi₀.heapsValid⟩ fun u hu c _ => ⟨hu.1.cleanClient _ _ c,
        cleanClient_heapsValid (hu.2.ladderInv hu.1.classMembership) hu.1 _ _ c⟩).2
  · exact hi₀.heapsValid

end Remove

/-! ## `do_next_request` and `pull_request` -/

section Next

variable {info : C → ClientInfo}

theorem sameKeys_compensate (c : C) : SameKeys t (t.compensate c) := by
  unfold compensate
  split
  · exact .rfl
  · refine SameKeys.trans (sameKeys_modifyClient ?_) (sameKeys_of_clientMap rfl rfl rfl)
    exact fun _ => ⟨rfl, rfl, rfl⟩

/-- At a roll-over under the records' own callback no info changes, so no client migrates, and
the compensation update and the counter reset touch no key. -/
theorem InfoFaithful.rollClient_sameKeys (hi : InfoFaithful info t) (c : C) :
    SameKeys t (t.rollClient info c) := by
  unfold PriorityQueueBase.rollClient
  split
  · exact .rfl
  · rename_i client hclient
    rw [installInfo, if_neg (by rw [hi.info_of_findClient hclient]; exact not_not.mpr rfl)]
    refine SameKeys.trans ?_ (sameKeys_modifyClient fun _ => ⟨rfl, rfl, rfl⟩)
    unfold checkCompensation
    split
    · split
      · exact sameKeys_compensate c
      · exact .rfl
    · exact .rfl

theorem InfoFaithful.windowRollover_sameKeys (hi : InfoFaithful info t) (now : ℚ) :
    SameKeys t (t.windowRollover info now) := by
  unfold PriorityQueueBase.windowRollover
  dsimp only
  exact (List.foldlRecOn (motive := fun u => InfoFaithful info u ∧ SameKeys t u) _ _
    (b := { t with winStart := max (t.winStart + t.winSize) now })
    ⟨hi.keeps (keepsInfo_of_clientMap rfl rfl), sameKeys_of_clientMap rfl rfl rfl⟩
    fun u hu c _ => ⟨infoFaithful_keptWith.under.rollClient hu.1 c,
      hu.2.trans (hu.1.rollClient_sameKeys c)⟩).2

theorem limitBreak_ladderInv (hi : t.LadderInv) {n : NextReq} (h : t.limitBreak = some (n, t')) :
    t'.LadderInv := by
  unfold limitBreak at h
  repeat' split at h
  all_goals cases h; try exact hi.modifyClient_keys fun _ => ⟨rfl, rfl, rfl, rfl⟩

/-- The ladder walks the limit heaps, which keeps the invariants, and bumps a counter. -/
theorem dispatchLadder_ladderInv (hi : t.LadderInv) {now : ℚ} {n : NextReq}
    (h : t.dispatchLadder now = .ok (n, t')) : t'.LadderInv := by
  have w₁ := (promoteWalk_spec HeapSel.walkPair_limit now hi).1
  have w₂ := (promoteWalk_spec HeapSel.walkPair_rLimit now w₁).1
  have w₃ := (promoteWalk_spec HeapSel.walkPair_bestLimit now w₂).1
  unfold dispatchLadder at h
  split at h
  · cases h; exact hi.modifyClient_keys fun _ => ⟨rfl, rfl, rfl, rfl⟩
  dsimp only at h
  split at h
  · cases h; exact w₁.modifyClient_keys fun _ => ⟨rfl, rfl, rfl, rfl⟩
  split at h
  · cases h; exact w₂.modifyClient_keys fun _ => ⟨rfl, rfl, rfl, rfl⟩
  split at h
  · cases h; exact w₃.modifyClient_keys fun _ => ⟨rfl, rfl, rfl, rfl⟩
  split at h
  · rename_i hb; cases h; exact limitBreak_ladderInv w₃ hb
  · obtain ⟨_, -, h⟩ := except_map_eq_ok.mp h
    cases h; exact w₃

theorem doNextRequest_ladderInv (hi : t.LadderInv) (hf : InfoFaithful info t) {now : ℚ}
    {n : NextReq} (h : t.doNextRequest info now = .ok (n, t')) : t'.LadderInv := by
  unfold PriorityQueueBase.doNextRequest at h
  split at h
  · cases h; exact hi
  · refine dispatchLadder_ladderInv ?_ h
    split
    · exact (hi.heapsValid.sameKeys (hf.windowRollover_sameKeys now)).ladderInv
        (windowRollover_classMembership hi.classMembership info now)
    · exact hi

theorem pullRequest_heapsValid (hi : t.LadderInv) (hm : t.Members) (hf : InfoFaithful info t)
    (hrates : ∀ c, 0 ≤ (info c).reservation ∧ 0 ≤ (info c).weight) {now : ℚ} {p : PullReq C R}
    (h : t.pullRequest info now = .ok (p, t')) : t'.HeapsValid := by
  unfold PriorityQueueBase.pullRequest at h
  obtain ⟨⟨next, t₁⟩, hnext, h⟩ := except_bind_eq_ok.mp h
  have hi₁ := doNextRequest_ladderInv hi hf hnext
  dsimp only at h
  split at h
  · cases h; exact hi₁.heapsValid
  · cases h; exact hi₁.heapsValid
  · split at h
    all_goals first
      | cases h
      | obtain ⟨⟨⟨c₀, r⟩, t₂⟩, hpop, h⟩ := except_bind_eq_ok.mp h
        cases h
        exact popProcessRequest_heapsValid hi₁ (hm.doNextRequest hnext)
          (infoFaithful_keptWith.under.doNextRequest hf hnext) hrates hpop

end Next

/-! ## Runs -/

section Runs

variable {info : C → ClientInfo}

/-- Installing the callback's info in records that already hold it changes nothing. -/
theorem InfoFaithful.modifyClient_info (hi : InfoFaithful info t) (c : C) :
    t.modifyClient c (fun r => { r with info := info c }) = t := by
  have e : t.clientMap.map (fun r => if r.client = c then { r with info := info c } else r) =
      t.clientMap := by
    conv_rhs => rw [← List.map_id t.clientMap]
    refine List.map_congr_left fun r hr => ?_
    split
    · rename_i h; rw [← h, ← hi.infoCurrent r hr]; rfl
    · rfl
  unfold PriorityQueueBase.modifyClient
  rw [e]

theorem InfoFaithful.updateClientInfos_eq (hi : InfoFaithful info t) :
    t.updateClientInfos info = t := by
  have e : t.clientMap.map (fun r => { r with info := info r.client }) = t.clientMap := by
    conv_rhs => rw [← List.map_id t.clientMap]
    exact List.map_congr_left fun r hr => by rw [← hi.infoCurrent r hr]; rfl
  unfold PriorityQueueBase.updateClientInfos
  rw [e]

/-- `update_client_info` with the records' own callback only recomputes the resources. -/
theorem InfoFaithful.updateClientInfo_same (hi : InfoFaithful info t) (c : C) :
    SameMembers t (t.updateClientInfo info c) ∧ SameKeys t (t.updateClientInfo info c) := by
  unfold PriorityQueueBase.updateClientInfo
  split
  · exact ⟨.rfl, .rfl⟩
  · dsimp only
    rw [hi.modifyClient_info c]
    split
    · exact ⟨sameMembers_addTotalWgtAndUpdateClientRes _, sameKeys_addTotalWgtAndUpdateClientRes _⟩
    · exact ⟨.rfl, .rfl⟩

/-- What every state of a run with one callback keeps: the membership, heaps that are heaps, and
the callback's infos in the records. -/
structure HeapInv (info : C → ClientInfo) (s : PriorityQueueBase C R) : Prop where
  members : s.Members
  heapsValid : s.HeapsValid
  faithful : InfoFaithful info s

theorem HeapInv.ladderInv (hs : HeapInv info s) : s.LadderInv :=
  hs.heapsValid.ladderInv hs.members.classMembership

/-- One case per operation: what an invariant needs to be kept by every step whose callback is
`info`, each case about the function that makes the step's state. -/
theorem step_preserves {J : PriorityQueueBase C R → Prop} {op : Op C R} {out : Out C R}
    (hop : ∀ f ∈ op.callback, f = info) (hs : J s) (h : s.step op = .ok (out, s'))
    (hadd : ∀ {r c p time t}, s.doAddRequest info r c p time = .ok t → J t)
    (hpull : ∀ {now p t}, s.pullRequest info now = .ok (p, t) → J t)
    (hremove : ∀ {c rev}, op = .removeByClient c rev → J (s.removeByClient c rev).1)
    (hfilter : ∀ f vb, J (s.removeByReqFilter f vb).1)
    (hupdate : ∀ c, J (s.updateClientInfo info c)) (hupdates : J (s.updateClientInfos info))
    (hclean : ∀ {now t}, s.doClean now = .ok t → J t) : J s' := by
  cases op with
  | addRequest infoF =>
    obtain rfl : infoF = info := hop infoF rfl
    exact hadd (step_eq_ok s h).2
  | pullRequest infoF =>
    obtain rfl : infoF = info := hop infoF rfl
    obtain ⟨p, -, hp⟩ := step_eq_ok s h
    exact hpull hp
  | scheduleRequest infoF =>
    obtain rfl : infoF = info := hop infoF rfl
    obtain ⟨p, -, hp⟩ := step_eq_ok s h
    rcases scheduleRequest_eq_ok s hp with ⟨-, -, rfl⟩ | ⟨-, hp⟩
    · exact hs
    · exact hpull hp
  | removeByClient => cases h; exact hremove rfl
  | removeByReqFilter f vb => cases h; exact hfilter f vb
  | updateClientInfo infoF c =>
    obtain rfl : infoF = info := hop infoF rfl
    cases h; exact hupdate c
  | updateClientInfos infoF =>
    obtain rfl : infoF = info := hop infoF rfl
    cases h; exact hupdates
  | doClean => exact hclean (step_eq_ok s h).2

/-- The step lemma: an operation whose callback is `info`, with reservations and weights that are
not negative, keeps the invariant. -/
theorem HeapInv.step (hrates : ∀ c, 0 ≤ (info c).reservation ∧ 0 ≤ (info c).weight)
    {op : Op C R} {out : Out C R} (hop : ∀ f ∈ op.callback, f = info) (hs : HeapInv info s)
    (h : s.step op = .ok (out, s')) : HeapInv info s' :=
  step_preserves (J := fun t => InfoFaithful info t → HeapInv info t) hop (fun _ => hs) h
    (fun h' hf => ⟨hs.members.doAddRequest h', doAddRequest_heapsValid hs.ladderInv hs.members h',
      hf⟩)
    (fun hp hf => ⟨hs.members.pullRequest hp,
      pullRequest_heapsValid hs.ladderInv hs.members hs.faithful hrates hp, hf⟩)
    (fun {c rev} _ hf => ⟨hs.members.removeByClient c rev,
      removeByClient_heapsValid hs.ladderInv c rev, hf⟩)
    (fun f vb hf => ⟨hs.members.removeByReqFilter f vb,
      removeByReqFilter_heapsValid hs.ladderInv hs.members f vb, hf⟩)
    (fun c hf => ⟨hs.members.sameMembers (hs.faithful.updateClientInfo_same c).1,
      hs.heapsValid.sameKeys (hs.faithful.updateClientInfo_same c).2, hf⟩)
    (fun _ => by rw [hs.faithful.updateClientInfos_eq]; exact hs)
    (fun h' hf => ⟨hs.members.doClean h', doClean_heapsValid hs.ladderInv hs.members h', hf⟩)
    (infoFaithful_keptWith.step hop hs.faithful h)

omit [LinearOrder C] in
theorem init_branching {b : ℕ} {idleAge eraseAge checkTime : ℚ} {alb : Bool} {at' cap win : ℚ}
    (h : init b idleAge eraseAge checkTime alb at' cap win = .ok s) : s.branching = b := by
  unfold init at h
  split at h
  · cases h
  · split at h
    · cases h
    · cases h; rfl

/-- The run lemma: from the constructor's state with a positive branching, every run whose
operations all call `info` keeps the invariant. -/
theorem HeapInv.run {b : ℕ} {idleAge eraseAge checkTime : ℚ} {alb : Bool} {at' cap win : ℚ}
    {s₀ : PriorityQueueBase C R} {ops : List (Op C R)} {outs : List (Out C R)}
    (hrates : ∀ c, 0 ≤ (info c).reservation ∧ 0 ≤ (info c).weight) (hb : 0 < b)
    (h₀ : init b idleAge eraseAge checkTime alb at' cap win = .ok s₀)
    (hops : ∀ op ∈ ops, ∀ f ∈ op.callback, f = info) (h : s₀.run ops = .ok (outs, s)) :
    HeapInv info s :=
  run_preserves (fun op hop _ _ _ ht hstep => ht.step hrates (hops op hop) hstep)
    ⟨⟨(init_invariants h₀).1, by simp [ids, (init_eq_ok h₀).1]⟩,
      ⟨(init_branching h₀).symm ▸ hb, (init_invariants h₀).2.1⟩,
      infoFaithful_of_clientMap_nil (init_eq_ok h₀).1⟩ h

attribute [local semireducible] Rat.add Rat.mul Rat.inv Rat.sub

/-- **The heaps stay heaps over runs with one callback.** In every run from the constructor's
state, with a positive branching, whose operations all call one callback whose reservations and
weights are not negative, every client of the map is in exactly the heaps of its class, once in
each, every heap member is a client, every heap has the heap property under its comparator, and
so the top of every heap has the least key among its members. -/
theorem run_ladderInv {info : C → ClientInfo} {b : ℕ} {idleAge eraseAge checkTime : ℚ}
    {alb : Bool} {at' cap win : ℚ} {s₀ s : PriorityQueueBase C R} {ops : List (Op C R)}
    {outs : List (Out C R)} (hrates : ∀ c, 0 ≤ (info c).reservation ∧ 0 ≤ (info c).weight)
    (hb : 0 < b) (h₀ : init b idleAge eraseAge checkTime alb at' cap win = .ok s₀)
    (hops : ∀ op ∈ ops, ∀ f ∈ op.callback, f = info) (h : s₀.run ops = .ok (outs, s)) :
    s.LadderInv ∧ ∀ h c a, s.heapTop h = some c → a ∈ s.heaps h → s.heapKey h c ≤ s.heapKey h a :=
  have hi := (HeapInv.run hrates hb h₀ hops h).ladderInv
  ⟨hi, fun h _ _ hc ha => (hi.heapsOrdered h).top_le hc ha⟩

/-- Client 1 of class R and client 2 of class B queue three requests, and three polls serve client
2 from `burst_heap`, then client 1 from `resv_heap`, then client 1 again. -/
theorem run_ladderInv_three_pulls :
    ∃ (s₀ : PriorityQueueBase ℕ ℕ) (outs : List (Out ℕ ℕ)) (s : PriorityQueueBase ℕ ℕ),
      init 2 600 900 360 false 0 10 1 = .ok s₀ ∧
      s₀.run
        [.addRequest (fun c => if c = 1 then ⟨1, 1, 0, .R⟩ else ⟨0, 1, 0, .B⟩) 100 1 {} 0,
        .addRequest (fun c => if c = 1 then ⟨1, 1, 0, .R⟩ else ⟨0, 1, 0, .B⟩) 101 1 {} 0,
        .addRequest (fun c => if c = 1 then ⟨1, 1, 0, .R⟩ else ⟨0, 1, 0, .B⟩) 200 2 {} 0,
        .pullRequest (fun c => if c = 1 then ⟨1, 1, 0, .R⟩ else ⟨0, 1, 0, .B⟩) 0,
        .pullRequest (fun c => if c = 1 then ⟨1, 1, 0, .R⟩ else ⟨0, 1, 0, .B⟩) 1,
        .pullRequest (fun c => if c = 1 then ⟨1, 1, 0, .R⟩ else ⟨0, 1, 0, .B⟩) 2] =
        .ok (outs, s) ∧
      outs.drop 3 = [.pulled (.returning 2 200 .priority), .pulled (.returning 1 100 .reservation),
        .pulled (.returning 1 101 .reservation)] ∧
      s.LadderInv ∧
        ∀ h c a, s.heapTop h = some c → a ∈ s.heaps h → s.heapKey h c ≤ s.heapKey h a := by
  refine ⟨_, ?_, ?_, rfl, ?h, ?_, @run_ladderInv ℕ ℕ _
    (fun c => if c = 1 then ⟨1, 1, 0, .R⟩ else ⟨0, 1, 0, .B⟩) 2 600 900 360 false 0 10 1 _ _ _ _
    (fun c => by dsimp only; split <;> norm_num) (by decide) rfl (by simp [Op.callback]) ?h⟩
  case h => exact rfl
  rfl

/-- **`empty()` and `request_count()` agree with the client map over runs with one callback.** In
every run as in `run_ladderInv`, `empty()`, which reads the tops of `resv_heap`, `burst_heap` and
`best_heap`, holds iff `request_count()`, which sums their members' queues, is 0, iff no client of
the map has a queued request. -/
theorem run_empty_iff {info : C → ClientInfo} {b : ℕ} {idleAge eraseAge checkTime : ℚ}
    {alb : Bool} {at' cap win : ℚ} {s₀ s : PriorityQueueBase C R} {ops : List (Op C R)}
    {outs : List (Out C R)} (hrates : ∀ c, 0 ≤ (info c).reservation ∧ 0 ≤ (info c).weight)
    (hb : 0 < b) (h₀ : init b idleAge eraseAge checkTime alb at' cap win = .ok s₀)
    (hops : ∀ op ∈ ops, ∀ f ∈ op.callback, f = info) (h : s₀.run ops = .ok (outs, s)) :
    (s.empty = true ↔ s.requestCount = 0) ∧ (s.requestCount = 0 ↔ s.NoPendingRequest) :=
  empty_iff_requestCount_eq_zero (HeapInv.run hrates hb h₀ hops h).ladderInv

/-- After the three polls of `run_ladderInv_three_pulls` both queues are empty, and `empty()`
says so. -/
theorem run_empty_after_three_pulls :
    ∃ (s₀ : PriorityQueueBase ℕ ℕ) (outs : List (Out ℕ ℕ)) (s : PriorityQueueBase ℕ ℕ),
      init 2 600 900 360 false 0 10 1 = .ok s₀ ∧
      s₀.run
        [.addRequest (fun c => if c = 1 then ⟨1, 1, 0, .R⟩ else ⟨0, 1, 0, .B⟩) 100 1 {} 0,
        .addRequest (fun c => if c = 1 then ⟨1, 1, 0, .R⟩ else ⟨0, 1, 0, .B⟩) 101 1 {} 0,
        .addRequest (fun c => if c = 1 then ⟨1, 1, 0, .R⟩ else ⟨0, 1, 0, .B⟩) 200 2 {} 0,
        .pullRequest (fun c => if c = 1 then ⟨1, 1, 0, .R⟩ else ⟨0, 1, 0, .B⟩) 0,
        .pullRequest (fun c => if c = 1 then ⟨1, 1, 0, .R⟩ else ⟨0, 1, 0, .B⟩) 1,
        .pullRequest (fun c => if c = 1 then ⟨1, 1, 0, .R⟩ else ⟨0, 1, 0, .B⟩) 2] =
        .ok (outs, s) ∧
      s.empty = true ∧
      (s.empty = true ↔ s.requestCount = 0) ∧ (s.requestCount = 0 ↔ s.NoPendingRequest) := by
  refine ⟨_, ?_, ?_, rfl, ?h, ?_, @run_empty_iff ℕ ℕ _
    (fun c => if c = 1 then ⟨1, 1, 0, .R⟩ else ⟨0, 1, 0, .B⟩) 2 600 900 360 false 0 10 1 _ _ _ _
    (fun c => by dsimp only; split <;> norm_num) (by decide) rfl (by simp [Op.callback]) ?h⟩
  case h => exact rfl
  rfl

end Runs

end PriorityQueueBase

end DmclockServer
