import DmclockServer.Invariants
import DmclockServer.Frame

/-!
# The limit walks

The ladder of `do_next_request` runs three limit walks, one per class with a limit: while the
top of the heap of limit tags has a head that is not ready and whose limit tag has passed, mark
the head ready, promote the client in the heap of proportion tags and demote it in the heap of
limit tags.

Over the states where every client is in exactly the heaps of its class and every heap has the
heap property (`LadderInv`):

* a round keeps `LadderInv` (`walkRound_ladderInv`): readying a head lowers the client's key in
  the heap of proportion tags, raises it in the heap of limit tags, and leaves it in every other
  heap of its class;
* `promoteWalk_spec`: a walk keeps `LadderInv`, only readies heads of members of the limit heap
  whose limit tag has passed (`WalkStep`), and ends with no member of the limit heap whose head is
  not ready and has passed its limit tag (`Walked`). Its fuel, one round per member and a last
  check, suffices: each round readies one more member.

A walk needs less than the whole ladder invariant: only that its two heaps are heaps (`WalkInv`:
the heaps branch, each holds a client once and has the heap property). From there a round keeps
`WalkInv` (`walkRound_walkInv`), a loop whose top does not qualify stops for good
(`promoteWalkLoop_of_stops`), and the heap property of the walked heap makes a stopped walk
complete (`walked_of_stops`): a member whose head is not ready and whose limit tag has passed
would sort at or above the top. So a walk ends within as many rounds as the walked heap has
members whose head is not ready (`promoteWalk_ends_within_notReadyCount`).
-/

namespace DmclockServer

namespace HeapSel

/-- The three limit walks of the ladder: the heap of limit tags walked, and the heap of
proportion tags its readied clients are promoted in. -/
def walkPairs : List (HeapSel × HeapSel) := [(limit, burst), (rLimit, deltar), (bestLimit, best)]

/-- What the proofs use of a walk pair: the comparators of the two heaps, and that a member of the
limit heap is in no other heap whose key reads the ready flag. -/
structure WalkPair (lh ph : HeapSel) : Prop where
  lowers : lh.readyOpt = .lowers
  limitField : lh.tagField = .limit
  noDelta : lh.usePropDelta = false
  raises : ph.readyOpt = .raises
  ne : lh ≠ ph
  ofClass_iff : ∀ cls, lh ∈ ofClass cls ↔ ph ∈ ofClass cls
  others : ∀ cls, lh ∈ ofClass cls → ∀ h ∈ ofClass cls, h ≠ lh → h ≠ ph → h.readyOpt = .ignore

theorem walkPair_of_mem {lh ph : HeapSel} (h : (lh, ph) ∈ walkPairs) : WalkPair lh ph := by
  simp only [walkPairs, List.mem_cons, Prod.mk.injEq, List.mem_singleton, List.not_mem_nil,
    or_false] at h
  rcases h with ⟨rfl, rfl⟩ | ⟨rfl, rfl⟩ | ⟨rfl, rfl⟩ <;>
    exact ⟨rfl, rfl, rfl, rfl, by decide, fun cls => by cases cls <;> decide,
      fun cls => by cases cls <;> decide⟩

end HeapSel

namespace ClientRec

variable {C R : Type}

@[simp] theorem client_setHeadTag (c : ClientRec C R) (t : RequestTag) :
    (c.setHeadTag t).client = c.client := rfl

@[simp] theorem info_setHeadTag (c : ClientRec C R) (t : RequestTag) :
    (c.setHeadTag t).info = c.info := rfl

theorem nextRequest_setHeadTag {c : ClientRec C R} {q : ClientReq C R}
    (hq : c.nextRequest = some q) (t : RequestTag) :
    (c.setHeadTag t).nextRequest = some { q with tag := t } := by
  unfold nextRequest at hq
  unfold nextRequest setHeadTag
  cases hr : c.requests with
  | nil => simp [hr] at hq
  | cons a l => simp_all

theorem compareKey_of_nextRequest {r : ClientRec C R} {q : ClientReq C R}
    (hq : r.nextRequest = some q) (tf : TagField) (ro : ReadyOption) (pd : Bool) :
    compareKey tf ro pd r =
      ((toLex (readyRank ro q.tag.ready, compareValue tf pd r q.tag) : ℕ ×ₗ Dbl) :
        WithTop (ℕ ×ₗ Dbl)) := by
  simp [compareKey, hq]

/-- Readying the head moves only the ready rank of the key. -/
theorem compareKey_readied {r : ClientRec C R} {q : ClientReq C R}
    (hq : r.nextRequest = some q) (tf : TagField) (ro : ReadyOption) (pd : Bool) :
    compareKey tf ro pd (r.setHeadTag { q.tag with ready := true }) =
      ((toLex (readyRank ro true, compareValue tf pd r q.tag) : ℕ ×ₗ Dbl) :
        WithTop (ℕ ×ₗ Dbl)) := by
  rw [compareKey_of_nextRequest (nextRequest_setHeadTag hq _)]
  cases tf <;> rfl

theorem head?_eq_some {r : ClientRec C R} {t : RequestTag} :
    r.head? = some t ↔ ∃ q, r.nextRequest = some q ∧ q.tag = t := by
  simp [head?]

theorem effectivePropTag_of_nextRequest {r : ClientRec C R} {q : ClientReq C R}
    (hq : r.nextRequest = some q) : r.effectivePropTag = q.tag.proportion + r.propDelta := by
  simp [effectivePropTag, hq]

/-- `r'` is `r`, or `r` with its head made ready, as a limit walk leaves a record. -/
def ReadiedOf (r r' : ClientRec C R) : Prop :=
  r' = r ∨ ∃ q, r.nextRequest = some q ∧ r' = r.setHeadTag { q.tag with ready := true }

/-- Readying a head changes neither the record's counters and parameters nor its effective
proportion tag. -/
theorem ReadiedOf.same {r r' : ClientRec C R} (h : ReadiedOf r r') :
    r'.info = r.info ∧ r'.bCounter = r.bCounter ∧ r'.deltarCounter = r.deltarCounter ∧
      r'.resource = r.resource ∧ r'.effectivePropTag = r.effectivePropTag := by
  rcases h with rfl | ⟨q, hq, rfl⟩
  · exact ⟨rfl, rfl, rfl, rfl, rfl⟩
  · refine ⟨rfl, rfl, rfl, rfl, ?_⟩
    rw [effectivePropTag_of_nextRequest (nextRequest_setHeadTag hq _),
      effectivePropTag_of_nextRequest hq]
    rfl

theorem compareKey_eq_top {r : ClientRec C R} {tf : TagField} {ro : ReadyOption} {pd : Bool} :
    compareKey tf ro pd r = ⊤ ↔ r.nextRequest = none := by
  unfold compareKey
  split <;> simp_all

end ClientRec

theorem toLex_le_toLex {a b : ℕ} {x y : Dbl} :
    ((toLex (a, x) : ℕ ×ₗ Dbl) : WithTop (ℕ ×ₗ Dbl)) ≤ ((toLex (b, y) : ℕ ×ₗ Dbl)) ↔
      a < b ∨ a = b ∧ x ≤ y := by
  rw [WithTop.coe_le_coe, Prod.Lex.le_iff]

namespace PriorityQueueBase

variable {C R : Type} {s s' s'' : PriorityQueueBase C R}

@[simp] theorem heaps_setHeap (h h' : HeapSel) (l : List C) :
    (s.setHeap h l).heaps h' = if h' = h then l else s.heaps h' := rfl

@[simp] theorem branching_setHeap (h : HeapSel) (l : List C) :
    (s.setHeap h l).branching = s.branching := rfl

theorem heapTop_of_heaps {t : PriorityQueueBase C R} (hh : s.heaps = t.heaps) (h : HeapSel) :
    s.heapTop h = t.heapTop h := by
  rw [heapTop, hh]; rfl

variable [LinearOrder C]

/-! ## The invariants the ladder rests on -/

/-- Every client is in exactly the heaps of its class, every heap has the heap property, and the
heaps branch. -/
structure LadderInv (s : PriorityQueueBase C R) : Prop where
  classMembership : s.ClassMembership
  heapsOrdered : s.HeapsOrdered
  branching_pos : 0 < s.branching

instance (s : PriorityQueueBase C R) : Decidable s.LadderInv :=
  decidable_of_iff (s.ClassMembership ∧ s.HeapsOrdered ∧ 0 < s.branching)
    ⟨fun ⟨hc, ho, hb⟩ => ⟨hc, ho, hb⟩, fun ⟨hc, ho, hb⟩ => ⟨hc, ho, hb⟩⟩

/-- The two heaps of a walk are heaps: the heaps branch, and each of the two holds a client at most
once (one slot per element) and has the heap property under its comparator. -/
structure WalkInv (lh ph : HeapSel) (s : PriorityQueueBase C R) : Prop where
  branching_pos : 0 < s.branching
  lhOrdered : IndIntruHeap.Ordered s.branching (s.heapKey lh) (s.heaps lh)
  phOrdered : IndIntruHeap.Ordered s.branching (s.heapKey ph) (s.heaps ph)
  lhNodup : (s.heaps lh).Nodup
  phNodup : (s.heaps ph).Nodup

instance (lh ph : HeapSel) (s : PriorityQueueBase C R) : Decidable (s.WalkInv lh ph) :=
  decidable_of_iff (0 < s.branching ∧ IndIntruHeap.Ordered s.branching (s.heapKey lh) (s.heaps lh) ∧
      IndIntruHeap.Ordered s.branching (s.heapKey ph) (s.heaps ph) ∧ (s.heaps lh).Nodup ∧
      (s.heaps ph).Nodup)
    ⟨fun ⟨h₁, h₂, h₃, h₄, h₅⟩ => ⟨h₁, h₂, h₃, h₄, h₅⟩, fun ⟨h₁, h₂, h₃, h₄, h₅⟩ => ⟨h₁, h₂, h₃, h₄, h₅⟩⟩

theorem ClassMembership.count_eq (hcm : s.ClassMembership) {c : C} {r : ClientRec C R}
    (hr : s.findClient c = some r) (h : HeapSel) :
    (s.heaps h).count c = if h ∈ HeapSel.ofClass r.info.clientType then 1 else 0 := by
  have := hcm.1 r (findClient_mem s hr) h (HeapSel.mem_all h)
  rwa [findClient_client s hr] at this

theorem ClassMembership.mem_heaps_iff (hcm : s.ClassMembership) {c : C} {r : ClientRec C R}
    (hr : s.findClient c = some r) (h : HeapSel) :
    c ∈ s.heaps h ↔ h ∈ HeapSel.ofClass r.info.clientType := by
  rw [← List.count_pos_iff, hcm.count_eq hr]
  split <;> simp_all

theorem ClassMembership.findClient_of_mem (hcm : s.ClassMembership) {c : C} {h : HeapSel}
    (hc : c ∈ s.heaps h) : ∃ r, s.findClient c = some r := by
  have hid := hcm.2 h (HeapSel.mem_all h) c hc
  obtain ⟨r, hr, rfl⟩ := List.mem_map.mp hid
  exact Option.isSome_iff_exists.mp (List.find?_isSome.mpr ⟨r, hr, by simp⟩)

theorem ClassMembership.nodup (hcm : s.ClassMembership) (h : HeapSel) : (s.heaps h).Nodup := by
  rw [List.nodup_iff_count_le_one]
  intro a
  by_cases ha : a ∈ s.heaps h
  · obtain ⟨r, hr⟩ := hcm.findClient_of_mem ha
    rw [hcm.count_eq hr]
    split <;> omega
  · rw [List.count_eq_zero_of_not_mem ha]
    omega

theorem LadderInv.walkInv (hi : s.LadderInv) (lh ph : HeapSel) : s.WalkInv lh ph :=
  ⟨hi.branching_pos, hi.heapsOrdered lh, hi.heapsOrdered ph, hi.classMembership.nodup lh,
    hi.classMembership.nodup ph⟩

/-- Class membership depends only on the ids and classes of the records and on the heaps' members
with their multiplicities. -/
theorem ClassMembership.congr (hcm : s.ClassMembership)
    (hm : s'.clientMap.map (fun r => (r.client, r.info.clientType)) =
      s.clientMap.map (fun r => (r.client, r.info.clientType)))
    (hh : ∀ h, (s'.heaps h).Perm (s.heaps h)) : s'.ClassMembership := by
  constructor
  · intro r' hr' h _
    have hmem : (r'.client, r'.info.clientType) ∈
        s.clientMap.map (fun r => (r.client, r.info.clientType)) :=
      hm ▸ List.mem_map_of_mem _ hr'
    obtain ⟨r, hr, he⟩ := List.mem_map.mp hmem
    simp only [Prod.mk.injEq] at he
    rw [(hh h).count_eq, ← he.1, ← he.2]
    exact hcm.1 r hr h (HeapSel.mem_all h)
  · intro h _ c hc
    have hids : s'.clientMap.map (·.client) = s.clientMap.map (·.client) := by
      simpa [List.map_map, Function.comp_def] using congrArg (List.map Prod.fst) hm
    rw [hids]
    exact hcm.2 h (HeapSel.mem_all h) c ((hh h).subset hc)

/-! ## Keys -/

theorem heapKey_of_findClient {c : C} {r : ClientRec C R} (hr : s.findClient c = some r)
    (h : HeapSel) : s.heapKey h c = compareKey h.tagField h.readyOpt h.usePropDelta r := by
  simp [heapKey, hr]

theorem heapKey_modifyClient {x : C} {f : ClientRec C R → ClientRec C R}
    (hf : ∀ r, r.client = x → (f r).client = x) (h : HeapSel) (a : C) :
    (s.modifyClient x f).heapKey h a =
      if a = x then ((s.findClient x).map fun r =>
        compareKey h.tagField h.readyOpt h.usePropDelta (f r)).getD ⊤
      else s.heapKey h a := by
  unfold heapKey
  rw [findClient_modifyClient s hf]
  by_cases ha : a = x
  · subst ha
    simp only [if_true]
    cases s.findClient a <;> rfl
  · simp only [ha, if_false]

theorem heapKey_eq_of_clientMap (h : s'.clientMap = s.clientMap) : s'.heapKey = s.heapKey := by
  funext hs a
  simp only [heapKey, findClient, h]

@[simp] theorem heapKey_setHeap (h : HeapSel) (l : List C) : (s.setHeap h l).heapKey = s.heapKey :=
  heapKey_eq_of_clientMap rfl

@[simp] theorem branching_modifyClient (c : C) (f : ClientRec C R → ClientRec C R) :
    (s.modifyClient c f).branching = s.branching := rfl

@[simp] theorem heaps_modifyClient (c : C) (f : ClientRec C R → ClientRec C R) :
    (s.modifyClient c f).heaps = s.heaps := rfl

/-! ## One round -/

section Round

variable (s) in
/-- One round of a limit walk: ready the head `q` of client `x`, promote `x` in `ph` and demote it
in `lh`. -/
def walkRound (lh ph : HeapSel) (x : C) (q : ClientReq C R) : PriorityQueueBase C R :=
  ((s.modifyClient x (·.setHeadTag { q.tag with ready := true })).heapPromote ph x).heapDemote lh x

variable {lh ph : HeapSel} {x : C} {q : ClientReq C R}

theorem walkRound_clientMap :
    (s.walkRound lh ph x q).clientMap =
      (s.modifyClient x (·.setHeadTag { q.tag with ready := true })).clientMap := rfl

theorem walkRound_heaps (hne : lh ≠ ph) (h : HeapSel) :
    (s.walkRound lh ph x q).heaps h =
      if h = lh then IndIntruHeap.demote s.branching
        (IndIntruHeap.ltOf ((s.modifyClient x (·.setHeadTag { q.tag with ready := true })).heapKey
          lh)) (s.heaps lh) x
      else if h = ph then IndIntruHeap.promote s.branching
        (IndIntruHeap.ltOf ((s.modifyClient x (·.setHeadTag { q.tag with ready := true })).heapKey
          ph)) (s.heaps ph) x
      else s.heaps h := by
  simp only [walkRound, heapDemote, heapPromote, heapLt_eq_ltOf, heapKey_setHeap, heaps_setHeap,
    branching_setHeap, branching_modifyClient, heaps_modifyClient]
  by_cases h₁ : h = lh
  · simp [h₁, hne]
  · by_cases h₂ : h = ph <;> simp [h₁, h₂, hne, Ne.symm hne]

theorem walkRound_perm (hne : lh ≠ ph) (h : HeapSel) :
    ((s.walkRound lh ph x q).heaps h).Perm (s.heaps h) := by
  rw [walkRound_heaps hne]
  split
  · subst h; exact IndIntruHeap.demote_perm _ _ _ _
  · split
    · subst h; exact IndIntruHeap.promote_perm _ _ _ _
    · exact List.Perm.refl _

theorem walkRound_findClient {r : ClientRec C R} (hr : s.findClient x = some r) (c : C) :
    (s.walkRound lh ph x q).findClient c =
      if c = x then some (r.setHeadTag { q.tag with ready := true }) else s.findClient c := by
  rw [show (s.walkRound lh ph x q).findClient c =
    (s.modifyClient x (·.setHeadTag { q.tag with ready := true })).findClient c from rfl,
    findClient_modifyClient s (f := (·.setHeadTag { q.tag with ready := true })) (fun r h => h),
    hr]
  rfl

/-- After a round only the readied client's keys change: each becomes the key of its head made
ready. -/
theorem heapKey_readied {r : ClientRec C R} (hr : s.findClient x = some r)
    (hq : r.nextRequest = some q) (h : HeapSel) (a : C) :
    (s.modifyClient x (·.setHeadTag { q.tag with ready := true })).heapKey h a =
      if a = x then ((toLex (readyRank h.readyOpt true,
        compareValue h.tagField h.usePropDelta r q.tag) : ℕ ×ₗ Dbl) : WithTop (ℕ ×ₗ Dbl))
      else s.heapKey h a := by
  rw [heapKey_modifyClient (f := (·.setHeadTag { q.tag with ready := true })) fun _ h => h]
  split
  · simp only [hr, Option.map_some', Option.getD_some]
    exact ClientRec.compareKey_readied hq _ _ _
  · rfl

theorem heapKey_of_nextRequest {r : ClientRec C R} (hr : s.findClient x = some r)
    (hq : r.nextRequest = some q) (h : HeapSel) :
    s.heapKey h x = ((toLex (readyRank h.readyOpt q.tag.ready,
      compareValue h.tagField h.usePropDelta r q.tag) : ℕ ×ₗ Dbl) : WithTop (ℕ ×ₗ Dbl)) := by
  rw [heapKey_of_findClient hr]
  exact ClientRec.compareKey_of_nextRequest hq _ _ _

/-- A round keeps the two heaps of the walk heaps: readying the head raises the client's key in
`lh`, where it is demoted, and lowers it in `ph`, where it is promoted. -/
theorem walkRound_walkInv (hp : HeapSel.WalkPair lh ph) (hw : s.WalkInv lh ph)
    {r : ClientRec C R} (hr : s.findClient x = some r) (hq : r.nextRequest = some q)
    (hready : q.tag.ready = false) : (s.walkRound lh ph x q).WalkInv lh ph := by
  have hkey (h : HeapSel) (a : C) (ha : a ≠ x) := (heapKey_readied hr hq h a).trans (if_neg ha)
  have hkeyx (h : HeapSel) := (heapKey_readied hr hq h x).trans (if_pos rfl)
  refine ⟨hw.branching_pos, ?_, ?_, (walkRound_perm hp.ne lh).nodup_iff.mpr hw.lhNodup,
    (walkRound_perm hp.ne ph).nodup_iff.mpr hw.phNodup⟩
  · show IndIntruHeap.Ordered s.branching
      ((s.modifyClient x (·.setHeadTag { q.tag with ready := true })).heapKey lh)
      ((s.walkRound lh ph x q).heaps lh)
    rw [walkRound_heaps hp.ne, if_pos rfl]
    refine IndIntruHeap.demote_ordered hw.branching_pos hw.lhOrdered hw.lhNodup (hkey _) ?_
    rw [hkeyx, heapKey_of_nextRequest hr hq, hp.lowers, hready, toLex_le_toLex]
    simp [readyRank]
  · show IndIntruHeap.Ordered s.branching
      ((s.modifyClient x (·.setHeadTag { q.tag with ready := true })).heapKey ph)
      ((s.walkRound lh ph x q).heaps ph)
    rw [walkRound_heaps hp.ne, if_neg hp.ne.symm, if_pos rfl]
    refine IndIntruHeap.promote_ordered hw.phOrdered hw.phNodup (hkey _) ?_
    rw [hkeyx, heapKey_of_nextRequest hr hq, hp.raises, hready, toLex_le_toLex]
    simp [readyRank]

/-- A round readies the head of a member of `lh` and keeps the invariants: the client's key falls
in `ph`, rises in `lh`, and stays in every other heap of its class. -/
theorem walkRound_ladderInv (hp : HeapSel.WalkPair lh ph) (hi : s.LadderInv)
    (hx : x ∈ s.heaps lh) {r : ClientRec C R} (hr : s.findClient x = some r)
    (hq : r.nextRequest = some q) (hready : q.tag.ready = false) :
    (s.walkRound lh ph x q).LadderInv := by
  have hw := walkRound_walkInv hp (hi.walkInv lh ph) hr hq hready
  have hlh : lh ∈ HeapSel.ofClass r.info.clientType :=
    (hi.classMembership.mem_heaps_iff hr lh).mp hx
  refine ⟨hi.classMembership.congr ?_ (walkRound_perm hp.ne), fun h => ?_, hi.branching_pos⟩
  · rw [walkRound_clientMap]
    simp only [modifyClient, List.map_map]
    congr 1
    funext r'
    by_cases h' : r'.client = x <;> simp [h']
  · by_cases h₁ : h = lh
    · exact h₁ ▸ hw.lhOrdered
    by_cases h₂ : h = ph
    · exact h₂ ▸ hw.phOrdered
    show IndIntruHeap.Ordered s.branching
      ((s.modifyClient x (·.setHeadTag { q.tag with ready := true })).heapKey h)
      ((s.walkRound lh ph x q).heaps h)
    rw [walkRound_heaps hp.ne, if_neg h₁, if_neg h₂]
    refine (hi.heapsOrdered h).congr fun a ha => ?_
    rw [heapKey_readied hr hq]
    split
    · rename_i hax
      subst hax
      have hign := hp.others _ hlh h ((hi.classMembership.mem_heaps_iff hr h).mp ha) h₁ h₂
      rw [heapKey_of_nextRequest hr hq, hign]
      rfl
    · rfl

end Round

/-! ## A whole walk -/

section Walk

variable (lh : HeapSel) (now : ℚ)

/-- No member of `lh` has a head that is not ready and whose limit tag has passed. -/
def Walked (s : PriorityQueueBase C R) : Prop :=
  ∀ c ∈ s.heaps lh, ∀ r q, s.findClient c = some r → r.nextRequest = some q →
    q.tag.ready = false → .fin now < q.tag.limit

/-- What a walk does between `s` and `s'`: it readies heads of members of `lh` whose limit tag has
passed, permutes the heaps, and keeps the parameters. -/
structure WalkStep (s s' : PriorityQueueBase C R) : Prop where
  readies : ∀ c, s'.findClient c = s.findClient c ∨ c ∈ s.heaps lh ∧ ∃ r q,
    s.findClient c = some r ∧ r.nextRequest = some q ∧ q.tag.ready = false ∧
      q.tag.limit ≤ .fin now ∧ s'.findClient c = some (r.setHeadTag { q.tag with ready := true })
  perm : ∀ h, (s'.heaps h).Perm (s.heaps h)
  branching_eq : s'.branching = s.branching
  winSize_eq : s'.winSize = s.winSize
  allowLimitBreak_eq : s'.allowLimitBreak = s.allowLimitBreak

/-- The members of `lh` whose head is not ready. -/
def notReadyCount (s : PriorityQueueBase C R) : ℕ :=
  (s.heaps lh).countP fun c => match s.findClient c with
    | some r => match r.nextRequest with
      | some q => !q.tag.ready
      | none => false
    | none => false

/-- The walk stops at `s`: the top of `lh` is missing or has no request, or its head is ready or
has a limit tag still ahead. -/
def WalkStops (s : PriorityQueueBase C R) : Prop :=
  ∀ top q, s.topRec lh = some top → top.nextRequest = some q →
    ¬ (q.tag.ready = false ∧ q.tag.limit ≤ .fin now)

variable {lh now}

theorem WalkStep.rfl : WalkStep lh now s s :=
  ⟨fun _ => .inl (Eq.refl _), fun _ => List.Perm.refl _, Eq.refl _, Eq.refl _, Eq.refl _⟩

theorem WalkStep.trans (h₁ : WalkStep lh now s s') (h₂ : WalkStep lh now s' s'') :
    WalkStep lh now s s'' := by
  refine ⟨fun c => ?_, fun h => (h₂.perm h).trans (h₁.perm h),
    h₂.branching_eq.trans h₁.branching_eq, h₂.winSize_eq.trans h₁.winSize_eq,
    h₂.allowLimitBreak_eq.trans h₁.allowLimitBreak_eq⟩
  rcases h₂.readies c with h₂c | ⟨hc', r', q', hr', hq', hrd', hl', h₂c⟩
  · rw [h₂c]
    exact h₁.readies c
  · rcases h₁.readies c with h₁c | ⟨-, r, q, hr, hq, -, -, h₁c⟩
    · exact .inr ⟨(h₁.perm lh).subset hc', r', q', h₁c ▸ hr', hq', hrd', hl', h₂c⟩
    · -- a head readied by the first part is not readied again
      rw [h₁c, Option.some.injEq] at hr'
      subst hr'
      rw [ClientRec.nextRequest_setHeadTag hq, Option.some.injEq] at hq'
      subst hq'
      simp at hrd'

theorem countP_lt_countP_of_mem {α : Type} {p q : α → Bool} {l : List α}
    (hle : ∀ a ∈ l, q a = true → p a = true) {x : α} (hx : x ∈ l) (hpx : p x = true)
    (hqx : q x = false) : l.countP q < l.countP p := by
  induction l with
  | nil => cases hx
  | cons a l ih =>
    simp only [List.countP_cons]
    have hmono : l.countP q ≤ l.countP p :=
      List.countP_mono_left fun a ha => hle a (List.mem_cons_of_mem _ ha)
    rcases List.mem_cons.mp hx with rfl | hx
    · simp only [hpx, hqx, if_true, Bool.false_eq_true, if_false]
      omega
    · have := ih (fun a ha => hle a (List.mem_cons_of_mem _ ha)) hx
      have hhead := hle a (List.mem_cons_self _ _)
      cases hpa : p a <;> cases hqa : q a <;> simp [hpa, hqa] at hhead ⊢ <;> omega

variable {ph : HeapSel} {x : C} {q : ClientReq C R}

/-- A round is a step of the walk, and readies one more member. -/
theorem walkRound_walkStep (hp : HeapSel.WalkPair lh ph) (hx : x ∈ s.heaps lh)
    {r : ClientRec C R} (hr : s.findClient x = some r)
    (hq : r.nextRequest = some q) (hready : q.tag.ready = false)
    (hlim : q.tag.limit ≤ .fin now) :
    WalkStep lh now s (s.walkRound lh ph x q) ∧
      (s.walkRound lh ph x q).notReadyCount lh < s.notReadyCount lh := by
  have hfind : ∀ c, (s.walkRound lh ph x q).findClient c = _ := walkRound_findClient hr
  refine ⟨⟨fun c => ?_, walkRound_perm hp.ne, Eq.refl _, Eq.refl _, Eq.refl _⟩, ?_⟩
  · rw [hfind]
    by_cases hc : c = x
    · subst hc
      exact .inr ⟨hx, r, q, hr, hq, hready, hlim, by rw [if_pos rfl]⟩
    · exact .inl (if_neg hc)
  · unfold notReadyCount
    rw [(walkRound_perm hp.ne lh).countP_eq]
    refine countP_lt_countP_of_mem (fun a _ ha => ?_) hx (by simp [hr, hq, hready]) ?_
    · by_cases hax : a = x
      · subst hax
        simp [hfind, ClientRec.nextRequest_setHeadTag hq] at ha
      · simpa [hfind, hax] using ha
    · simp [hfind, ClientRec.nextRequest_setHeadTag hq]

theorem topRec_mem {h : HeapSel} {top : ClientRec C R} (ht : s.topRec h = some top) :
    top.client ∈ s.heaps h := by
  obtain ⟨c, hc, hf⟩ := Option.bind_eq_some.mp ht
  rw [findClient_client s hf]
  exact List.mem_of_mem_head? hc

/-! ### One iteration of the loop -/

theorem walkStops_or_round (s : PriorityQueueBase C R) :
    WalkStops lh now s ∨ ∃ top q, s.topRec lh = some top ∧ top.nextRequest = some q ∧
      q.tag.ready = false ∧ q.tag.limit ≤ .fin now := by
  by_cases h : ∃ top q, s.topRec lh = some top ∧ top.nextRequest = some q ∧
      q.tag.ready = false ∧ q.tag.limit ≤ .fin now
  · exact .inr h
  · exact .inl fun top q ht hq hc => h ⟨top, q, ht, hq, hc⟩

theorem promoteWalkLoop_of_stops (hs : WalkStops lh now s) :
    ∀ fuel, promoteWalkLoop lh ph now fuel s = s
  | 0 => rfl
  | fuel + 1 => by
    rw [promoteWalkLoop]
    split
    · rfl
    · rename_i top htop
      split
      · rfl
      · rename_i q hq
        rw [if_neg fun hc => hs top q htop hq (by simpa using hc)]

theorem promoteWalkLoop_of_round {top : ClientRec C R} (htop : s.topRec lh = some top)
    (hq : top.nextRequest = some q) (hrd : q.tag.ready = false) (hlim : q.tag.limit ≤ .fin now)
    (fuel : ℕ) : promoteWalkLoop lh ph now (fuel + 1) s =
      promoteWalkLoop lh ph now fuel (s.walkRound lh ph top.client q) := by
  rw [promoteWalkLoop, htop]
  dsimp only
  rw [hq]
  dsimp only
  rw [if_pos (by simp [hrd, hlim])]
  rfl

/-- A stopped walk is done: by the heap property every member of `lh` is behind the top. -/
theorem walked_of_stops (hp : HeapSel.WalkPair lh ph)
    (ho : IndIntruHeap.Ordered s.branching (s.heapKey lh) (s.heaps lh))
    (hs : WalkStops lh now s) : s.Walked lh now := by
  intro c' hc' r' q' hr' hq' hrd'
  obtain ⟨c, hc⟩ : ∃ c, (s.heaps lh).head? = some c := by
    cases hl : s.heaps lh with
    | nil => simp [hl] at hc'
    | cons c _ => exact ⟨c, rfl⟩
  have hle := ho.top_le hc hc'
  cases ht : s.findClient c with
  | none =>
    rw [show s.heapKey lh c = ⊤ by simp [heapKey, ht], heapKey_of_nextRequest hr' hq',
      top_le_iff] at hle
    exact absurd hle WithTop.coe_ne_top
  | some top =>
    have htop : s.topRec lh = some top := by simp [topRec, heapTop, hc, ht]
    rw [heapKey_of_findClient ht, heapKey_of_nextRequest hr' hq', hp.lowers, hp.limitField,
      hp.noDelta, hrd'] at hle
    cases htq : top.nextRequest with
    | none =>
      rw [ClientRec.compareKey_eq_top.mpr htq] at hle
      exact absurd hle (by simp)
    | some q =>
      rw [ClientRec.compareKey_of_nextRequest htq, toLex_le_toLex] at hle
      cases hrd : q.tag.ready <;> simp [readyRank, hrd] at hle
      have := hs top q htop htq
      simp only [hrd, true_and, not_le] at this
      exact lt_of_lt_of_le this hle

/-! ### Whole runs of the loop -/

/-- What every round keeps, a whole run of the loop keeps. -/
theorem promoteWalkLoop_induction {P : PriorityQueueBase C R → Prop}
    (hround : ∀ s top q, s.topRec lh = some top → top.nextRequest = some q →
      q.tag.ready = false → q.tag.limit ≤ .fin now → P s → P (s.walkRound lh ph top.client q)) :
    ∀ (fuel : ℕ) (s : PriorityQueueBase C R), P s → P (promoteWalkLoop lh ph now fuel s)
  | 0, _, hs => hs
  | fuel + 1, s, hs => by
    rcases walkStops_or_round s with hst | ⟨top, q, htop, hq, hrd, hlim⟩
    · rwa [promoteWalkLoop_of_stops hst]
    · rw [promoteWalkLoop_of_round htop hq hrd hlim]
      exact promoteWalkLoop_induction hround fuel _ (hround s top q htop hq hrd hlim hs)

/-- The loop only readies heads of members of `lh` whose limit tag has passed. -/
theorem promoteWalkLoop_walkStep (hp : HeapSel.WalkPair lh ph) (fuel : ℕ)
    (s : PriorityQueueBase C R) : WalkStep lh now s (promoteWalkLoop lh ph now fuel s) :=
  promoteWalkLoop_induction (P := WalkStep lh now s) (fun t _ _ htop hq hrd hlim ht =>
    ht.trans (walkRound_walkStep hp (topRec_mem htop) (topRec_findClient t htop) hq hrd hlim).1)
    fuel s .rfl

theorem promoteWalkLoop_walkInv (hp : HeapSel.WalkPair lh ph) (fuel : ℕ)
    (s : PriorityQueueBase C R) (hw : s.WalkInv lh ph) :
    (promoteWalkLoop lh ph now fuel s).WalkInv lh ph :=
  promoteWalkLoop_induction (fun t _ _ htop hq hrd _ ht =>
    walkRound_walkInv hp ht (topRec_findClient t htop) hq hrd) fuel s hw

theorem promoteWalkLoop_ladderInv (hp : HeapSel.WalkPair lh ph) (fuel : ℕ)
    (s : PriorityQueueBase C R) (hi : s.LadderInv) :
    (promoteWalkLoop lh ph now fuel s).LadderInv :=
  promoteWalkLoop_induction (fun t _ _ htop hq hrd _ ht =>
    walkRound_ladderInv hp ht (topRec_mem htop) (topRec_findClient t htop) hq hrd) fuel s hi

/-- Each round readies one more member of `lh` whose head was not ready, so fuel past the count
of those members brings the loop to a stop. -/
theorem promoteWalkLoop_walkStops (hp : HeapSel.WalkPair lh ph) :
    ∀ (fuel : ℕ) (s : PriorityQueueBase C R), s.notReadyCount lh < fuel →
      WalkStops lh now (promoteWalkLoop lh ph now fuel s)
  | 0, _, hf => absurd hf (Nat.not_lt_zero _)
  | fuel + 1, s, hf => by
    rcases walkStops_or_round s with hs | ⟨top, q, htop, hq, hrd, hlim⟩
    · rwa [promoteWalkLoop_of_stops hs]
    · rw [promoteWalkLoop_of_round htop hq hrd hlim]
      have hlt := (walkRound_walkStep hp (topRec_mem htop) (topRec_findClient s htop) hq hrd
        hlim).2
      exact promoteWalkLoop_walkStops hp fuel _ (by omega)

/-- Once the fuel covers the members with a head that is not ready, one more unit changes
nothing. -/
theorem promoteWalkLoop_succ_of_le (hp : HeapSel.WalkPair lh ph) :
    ∀ (fuel : ℕ) (s : PriorityQueueBase C R), s.notReadyCount lh ≤ fuel →
      promoteWalkLoop lh ph now (fuel + 1) s = promoteWalkLoop lh ph now fuel s
  | fuel, s, hf => by
    rcases walkStops_or_round s with hs | ⟨top, q, htop, hq, hrd, hlim⟩
    · rw [promoteWalkLoop_of_stops hs, promoteWalkLoop_of_stops hs]
    · have hlt := (walkRound_walkStep hp (topRec_mem htop) (topRec_findClient s htop) hq hrd
        hlim).2
      obtain ⟨f, rfl⟩ : ∃ f, fuel = f + 1 := ⟨fuel - 1, by omega⟩
      rw [promoteWalkLoop_of_round htop hq hrd hlim, promoteWalkLoop_of_round htop hq hrd hlim]
      exact promoteWalkLoop_succ_of_le hp f _ (by omega)

/-- Any fuel from the count of members of `lh` with a head that is not ready on gives the same
state: the loop runs at most that many rounds. -/
theorem promoteWalkLoop_eq_of_le (hp : HeapSel.WalkPair lh ph) (s : PriorityQueueBase C R)
    {fuel : ℕ} (hf : s.notReadyCount lh ≤ fuel) :
    promoteWalkLoop lh ph now fuel s = promoteWalkLoop lh ph now (s.notReadyCount lh) s := by
  induction fuel, hf using Nat.le_induction with
  | base => rfl
  | succ f hle ih => rw [promoteWalkLoop_succ_of_le hp f s hle, ih]

/-- With fuel past the count of members with a head that is not ready, the loop ends stopped, so
with the walked heap ordered the walk is done. -/
theorem promoteWalkLoop_walked (hp : HeapSel.WalkPair lh ph) (fuel : ℕ)
    (s : PriorityQueueBase C R) (hw : s.WalkInv lh ph) (hf : s.notReadyCount lh < fuel) :
    (promoteWalkLoop lh ph now fuel s).Walked lh now :=
  walked_of_stops hp (promoteWalkLoop_walkInv hp fuel s hw).lhOrdered
    (promoteWalkLoop_walkStops hp fuel s hf)

theorem promoteWalkLoop_allowLimitBreak (ph : HeapSel) :
    ∀ (fuel : ℕ) (s : PriorityQueueBase C R),
      (promoteWalkLoop lh ph now fuel s).allowLimitBreak = s.allowLimitBreak := fun fuel s =>
  promoteWalkLoop_induction (P := fun t => t.allowLimitBreak = s.allowLimitBreak)
    (fun _ _ _ _ _ _ _ ht => ht) fuel s rfl

/-- **A walk does its work.** From a state with the invariants, the walk of `lh` keeps them,
only readies heads of members of `lh` whose limit tag has passed, and leaves no member of `lh`
whose head is not ready and has passed its limit tag. -/
theorem promoteWalk_spec (hp : HeapSel.WalkPair lh ph) (now : ℚ) (hi : s.LadderInv) :
    (s.promoteWalk lh ph now).LadderInv ∧ (s.promoteWalk lh ph now).Walked lh now ∧
      WalkStep lh now s (s.promoteWalk lh ph now) :=
  ⟨promoteWalkLoop_ladderInv hp _ s hi, promoteWalkLoop_walked hp _ s (hi.walkInv lh ph)
    (Nat.lt_succ_of_le (List.countP_le_length _)), promoteWalkLoop_walkStep hp _ s⟩

/-- **A walk ends within the count of members with a head that is not ready.** Started with
both of its heaps heaps, a walk has stopped after as many rounds as the walked heap has members
whose head is not ready, so more fuel, the walk's own included, gives the same state; every state
it passes through keeps both heaps heaps; it only readies heads of members of the walked heap
whose limit tag has passed; and on exit no member of the walked heap has a head that is not
ready with a passed limit tag. -/
theorem promoteWalk_ends_within_notReadyCount (hpair : (lh, ph) ∈ HeapSel.walkPairs) (now : ℚ)
    (hw : s.WalkInv lh ph) :
    WalkStops lh now (promoteWalkLoop lh ph now (s.notReadyCount lh) s) ∧
      (∀ fuel, s.notReadyCount lh ≤ fuel →
        promoteWalkLoop lh ph now fuel s = promoteWalkLoop lh ph now (s.notReadyCount lh) s) ∧
      s.promoteWalk lh ph now = promoteWalkLoop lh ph now (s.notReadyCount lh) s ∧
      (∀ fuel, (promoteWalkLoop lh ph now fuel s).WalkInv lh ph) ∧
      WalkStep lh now s (s.promoteWalk lh ph now) ∧ (s.promoteWalk lh ph now).Walked lh now := by
  have hp := HeapSel.walkPair_of_mem hpair
  have heq (fuel : ℕ) (hf : s.notReadyCount lh ≤ fuel) :
      promoteWalkLoop lh ph now fuel s = promoteWalkLoop lh ph now (s.notReadyCount lh) s :=
    promoteWalkLoop_eq_of_le hp s hf
  have hlen : s.notReadyCount lh ≤ (s.heaps lh).length := List.countP_le_length _
  refine ⟨?_, heq, heq _ (by omega), fun fuel => promoteWalkLoop_walkInv hp fuel s hw,
    promoteWalkLoop_walkStep hp _ s, promoteWalkLoop_walked hp _ s hw (by omega)⟩
  rw [← heq _ (Nat.le_succ _)]
  exact promoteWalkLoop_walkStops hp _ s (Nat.lt_succ_self _)

section Runs

attribute [local semireducible] Rat.add Rat.mul Rat.inv Rat.sub

/-- Clients 1 and 2 of class B with a limit of 1 queue requests at time 0, whose heads are not
ready: the walk of `limit_heap` at time 5 has two rounds to take. -/
theorem promoteWalk_ends_within_two :
    ∃ (s₀ : PriorityQueueBase ℕ ℕ) (outs : List (Out ℕ ℕ)) (s : PriorityQueueBase ℕ ℕ),
      init 2 600 900 360 false 0 10 1 = .ok s₀ ∧
      s₀.run [.addRequest (fun _ => ⟨0, 1, 1, .B⟩) 100 1 {} 0,
        .addRequest (fun _ => ⟨0, 1, 1, .B⟩) 200 2 {} 0,
        .addRequest (fun _ => ⟨0, 1, 1, .B⟩) 101 1 {} 0] = .ok (outs, s) ∧
      (HeapSel.limit, HeapSel.burst) ∈ HeapSel.walkPairs ∧ s.WalkInv .limit .burst ∧
      s.notReadyCount .limit = 2 ∧
      WalkStops .limit 5 (promoteWalkLoop .limit .burst 5 (s.notReadyCount .limit) s) ∧
      (∀ fuel, s.notReadyCount .limit ≤ fuel → promoteWalkLoop .limit .burst 5 fuel s =
        promoteWalkLoop .limit .burst 5 (s.notReadyCount .limit) s) ∧
      s.promoteWalk .limit .burst 5 = promoteWalkLoop .limit .burst 5 (s.notReadyCount .limit) s ∧
      (∀ fuel, (promoteWalkLoop .limit .burst 5 fuel s).WalkInv .limit .burst) ∧
      WalkStep .limit 5 s (s.promoteWalk .limit .burst 5) ∧
      (s.promoteWalk .limit .burst 5).Walked .limit 5 :=
  ⟨_, _, _, rfl, rfl, by decide, by decide, rfl,
    promoteWalk_ends_within_notReadyCount (by decide) 5 (by decide)⟩

end Runs

end Walk

end PriorityQueueBase

end DmclockServer
