import DmclockServer.Accounting

/-!
# What `do_clean` does

`do_clean` appends a mark point `(now, tick)`, pops the points at least `erase_age` old, reads
`idle_point` off the rest, then erases and idles clients. On mark points in time order:

* when the millisecond `erase_age` is positive the erase loop stops at the point just appended,
  and `erase_point` is the tick of the newest point at least `erase_age` old
  (`erasePointLoop_eq_ok`); when it truncates to 0 the loop pops that point too and reads the
  front of the emptied deque (`erasePointLoop_eq_error`, `doClean_eq_error`). The constructor's
  assertions check the ages before the truncation, so ages under a millisecond bring this about
  (`subMillisecond_doClean_reads_empty_front`);
* `idle_point` is the tick of the newest remaining point at least `idle_age` old
  (`idlePointLoop_eq`);
* the client loop erases exactly the clients last used at or before a nonzero `erase_point` and
  marks idle exactly the others last used at or before a nonzero `idle_point`; of the other
  fields only the resources change, recomputed when a weight is subtracted
  (`foldl_cleanClient_findClient`).

`doClean_spec` puts these together (`CleanedAt`). No other operation touches the ages or the mark
points (`step_cleanSettings`) and `do_clean` keeps the points in time order, so in every run from
the constructor with an `erase_age` of at least a millisecond and `do_clean` calls at
nondecreasing times, every `do_clean` cleans so (`init_run_doClean_spec`).
-/

namespace DmclockServer

/-- The tick of the newest of some mark points in deque order, 0 when there is none. -/
def newestTick (pts : List (ℚ × ℕ)) : ℕ := (pts.getLast?.map (·.2)).getD 0

namespace ClientRec

variable {C R : Type} {e i : ℕ}

/-- A record without its resource, the field that erasing another client recomputes. -/
def sansResource (r : ClientRec C R) : ClientRec C R := { r with resource := none }

/-- What `do_clean` leaves of a client's record: nothing when the client was last used at or
before a nonzero `erase_point`; otherwise the record, marked idle when it was last used at or
before a nonzero `idle_point`. -/
def afterClean (erasePoint idlePoint : ℕ) (r : ClientRec C R) : Option (ClientRec C R) :=
  if erasePoint ≠ 0 ∧ r.lastTick ≤ erasePoint then none
  else some { r with idle := r.idle || decide (idlePoint ≠ 0 ∧ r.lastTick ≤ idlePoint) }

theorem afterClean_of_erase {r : ClientRec C R} (he : e ≠ 0 ∧ r.lastTick ≤ e) :
    r.afterClean e i = none := if_pos he

theorem afterClean_of_idle {r : ClientRec C R} (he : ¬(e ≠ 0 ∧ r.lastTick ≤ e))
    (hi : i ≠ 0 ∧ r.lastTick ≤ i) : r.afterClean e i = some { r with idle := true } := by
  simp only [afterClean, if_neg he, decide_eq_true hi, Bool.or_true]

theorem afterClean_of_keep {r : ClientRec C R} (he : ¬(e ≠ 0 ∧ r.lastTick ≤ e))
    (hi : ¬(i ≠ 0 ∧ r.lastTick ≤ i)) : r.afterClean e i = some r := by
  simp only [afterClean, if_neg he, decide_eq_false hi, Bool.or_false]

theorem afterClean_sansResource (r : ClientRec C R) :
    r.sansResource.afterClean e i = (r.afterClean e i).map sansResource := by
  unfold afterClean sansResource
  split <;> rfl

theorem bind_afterClean_sansResource (o : Option (ClientRec C R)) :
    (o.bind (afterClean e i)).map sansResource = (o.map sansResource).bind (afterClean e i) := by
  cases o <;> simp [afterClean_sansResource]

/-- Cleaning a cleaned record again changes nothing. -/
theorem bind_afterClean_idem (o : Option (ClientRec C R)) :
    (o.bind (afterClean e i)).bind (afterClean e i) = o.bind (afterClean e i) := by
  cases o with
  | none => rfl
  | some r => by_cases he : e ≠ 0 ∧ r.lastTick ≤ e <;> simp [afterClean, he]

end ClientRec

/-- The time of a `do_clean` call. -/
def Op.cleanTime {C R : Type} : Op C R → Option ℚ
  | .doClean now => some now
  | _ => none

namespace PriorityQueueBase

variable {C R : Type}

/-! ## The mark points -/

section MarkPoints

variable {cutoff : ℚ}

theorem getLast?_tick_cons (p : ℚ × ℕ) (l : List (ℚ × ℕ)) (d : ℕ) :
    (((p :: l).getLast?.map (·.2)).getD d) = (l.getLast?.map (·.2)).getD p.2 := by
  cases h : l.getLast? <;> simp [List.getLast?_cons, h]

/-- When some point is later than the cutoff, the erase loop pops the points before the first such
one and returns the tick of the last one popped (`erasePoint` when it pops none). -/
theorem erasePointLoop_eq_ok {fuel : ℕ} {pts : List (ℚ × ℕ)} (ep : ℕ) (hf : pts.length ≤ fuel)
    (hlate : ∃ p ∈ pts, cutoff < p.1) :
    erasePointLoop cutoff fuel pts ep =
      .ok (pts.dropWhile (·.1 ≤ cutoff),
        ((pts.takeWhile (·.1 ≤ cutoff)).getLast?.map (·.2)).getD ep) := by
  induction fuel generalizing pts ep with
  | zero =>
    obtain rfl : pts = [] := List.eq_nil_of_length_eq_zero (Nat.le_zero.mp hf)
    simp at hlate
  | succ n ih =>
    cases pts with
    | nil => simp at hlate
    | cons p rest =>
      simp only [erasePointLoop]
      split
      · rename_i hp
        have hrest : ∃ q ∈ rest, cutoff < q.1 := by
          obtain ⟨q, hq, hlt⟩ := hlate
          rcases List.mem_cons.mp hq with rfl | hq
          · exact absurd hp (not_le.mpr hlt)
          · exact ⟨q, hq, hlt⟩
        rw [ih p.2 (by simpa using hf) hrest]
        simp [hp, getLast?_tick_cons]
      · simp [*]

/-- When no point is later than the cutoff, the erase loop pops them all and then reads the front
of the empty deque. -/
theorem erasePointLoop_eq_error {fuel : ℕ} {pts : List (ℚ × ℕ)} (ep : ℕ) (hf : pts.length < fuel)
    (hall : ∀ p ∈ pts, p.1 ≤ cutoff) :
    erasePointLoop cutoff fuel pts ep = .error "clean_mark_points.front() on an empty deque" := by
  induction pts generalizing fuel ep with
  | nil =>
    obtain ⟨n, rfl⟩ := Nat.exists_eq_succ_of_ne_zero (Nat.pos_iff_ne_zero.mp hf)
    rfl
  | cons p rest ih =>
    obtain ⟨n, rfl⟩ := Nat.exists_eq_succ_of_ne_zero (Nat.pos_iff_ne_zero.mp (by omega : 0 < fuel))
    simp only [erasePointLoop, if_pos (hall p (.head _))]
    exact ih p.2 (by simpa using hf) fun q hq => hall q (.tail _ hq)

/-- The idle loop returns the tick of the last of the leading points at or before the cutoff. -/
theorem idlePointLoop_eq (pts : List (ℚ × ℕ)) (ip : ℕ) :
    idlePointLoop cutoff pts ip = ((pts.takeWhile (·.1 ≤ cutoff)).getLast?.map (·.2)).getD ip := by
  induction pts generalizing ip with
  | nil => rfl
  | cons p rest ih =>
    simp only [idlePointLoop, List.takeWhile_cons]
    split
    · simp [*, getLast?_tick_cons]
    · simp [*]

/-- On points in time order the leading points at or before the cutoff are all the points at or
before it. -/
theorem takeWhile_dropWhile_of_pairwise (cutoff : ℚ) {pts : List (ℚ × ℕ)}
    (h : pts.Pairwise fun p q => p.1 ≤ q.1) :
    pts.takeWhile (·.1 ≤ cutoff) = pts.filter (·.1 ≤ cutoff) ∧
      pts.dropWhile (·.1 ≤ cutoff) = pts.filter (cutoff < ·.1) := by
  induction pts with
  | nil => simp
  | cons p rest ih =>
    rw [List.pairwise_cons] at h
    obtain ⟨ht, hd⟩ := ih h.2
    by_cases hp : p.1 ≤ cutoff
    · simp [List.takeWhile_cons, List.dropWhile_cons, List.filter_cons, hp, ht, hd]
    · have hlate : ∀ q ∈ rest, cutoff < q.1 := fun q hq => lt_of_lt_of_le (not_le.mp hp) (h.1 q hq)
      simp only [List.takeWhile_cons, List.dropWhile_cons, List.filter_cons, hp, not_le.mp hp,
        decide_False, decide_True, if_false, if_true, Bool.false_eq_true]
      exact ⟨(List.filter_eq_nil_iff.mpr fun q hq => by simpa using hlate q hq).symm,
        congrArg _ (List.filter_eq_self.mpr fun q hq => by simpa using hlate q hq).symm⟩

end MarkPoints

/-! ## The ages and the mark points -/

section Settings

variable (s : PriorityQueueBase C R) (now : ℚ)

/-- The ages and the mark points, which only `do_clean` writes. -/
def cleanSettings : ℤ × ℤ × List (ℚ × ℕ) := (s.idleAge, s.eraseAge, s.cleanMarkPoints)

/-- The mark points of a `do_clean` at `now`: the deque with `(now, tick)` appended. -/
def markPointsAt : List (ℚ × ℕ) := s.cleanMarkPoints ++ [(now, s.tick)]

/-- The tick of the newest mark point at least `erase_age` old at `now`, 0 if none. -/
def eraseTickAt : ℕ := newestTick ((s.markPointsAt now).filter (·.1 ≤ now - s.eraseAge / 1000))

/-- The tick of the newest mark point younger than `erase_age` and at least `idle_age` old at
`now`, 0 if none. -/
def idleTickAt : ℕ :=
  newestTick (((s.markPointsAt now).filter (now - s.eraseAge / 1000 < ·.1)).filter
    (·.1 ≤ now - s.idleAge / 1000))

/-- The mark points are in time order and none is later than `now`. -/
structure MarksBefore : Prop where
  ordered : s.cleanMarkPoints.Pairwise fun p q => p.1 ≤ q.1
  before : ∀ p ∈ s.cleanMarkPoints, p.1 ≤ now

@[simp] theorem cleanSettings_addTotalWgtAndUpdateClientRes (w : ℚ) :
    (s.addTotalWgtAndUpdateClientRes w).cleanSettings = s.cleanSettings := rfl

@[simp] theorem cleanSettings_forHeaps (hs : List HeapSel)
    {op : PriorityQueueBase C R → HeapSel → PriorityQueueBase C R}
    (hop : ∀ t h, (op t h).cleanSettings = t.cleanSettings) :
    (s.forHeaps hs op).cleanSettings = s.cleanSettings :=
  foldl_keeps s _ _ hop

variable {s now} {t : PriorityQueueBase C R}

theorem MarksBefore.mono (h : s.MarksBefore now) {now' : ℚ} (hle : now ≤ now') :
    s.MarksBefore now' :=
  ⟨h.ordered, fun p hp => (h.before p hp).trans hle⟩

theorem MarksBefore.markPointsAt (h : s.MarksBefore now) :
    (s.markPointsAt now).Pairwise fun p q => p.1 ≤ q.1 :=
  List.pairwise_append.mpr ⟨h.ordered, List.pairwise_singleton _ _,
    fun p hp q hq => by rw [List.mem_singleton.mp hq]; exact h.before p hp⟩

theorem MarksBefore.of_cleanSettings (h : s.MarksBefore now)
    (ht : t.cleanSettings = s.cleanSettings) : t.MarksBefore now := by
  have e : t.cleanMarkPoints = s.cleanMarkPoints := congrArg (·.2.2) ht
  exact ⟨e ▸ h.ordered, e ▸ h.before⟩

end Settings

variable [LinearOrder C]

/-! ## The client loop -/

section Sweep

variable (s : PriorityQueueBase C R) {e i : ℕ}

theorem findClient_deleteFromHeaps (r : ClientRec C R) (c : C) :
    (s.deleteFromHeaps r).findClient c = s.findClient c := by
  simp only [findClient, clientMap_deleteFromHeaps]

theorem sansResource_findClient_addTotalWgtAndUpdateClientRes (w : ℚ) (c : C) :
    ((s.addTotalWgtAndUpdateClientRes w).findClient c).map ClientRec.sansResource =
      (s.findClient c).map ClientRec.sansResource := by
  simp only [findClient, addTotalWgtAndUpdateClientRes, List.find?_map, Option.map_map,
    Function.comp_def]
  rfl

theorem cleanSettings_cleanClient (c₀ : C) :
    (s.cleanClient e i c₀).cleanSettings = s.cleanSettings := by
  have hd : ∀ r : ClientRec C R, (s.deleteFromHeaps r).cleanSettings = s.cleanSettings :=
    fun _ => foldl_keeps s cleanSettings _ fun _ _ => rfl
  unfold cleanClient
  split
  · rfl
  · split
    · split_ifs <;> exact hd _
    · split <;> rfl

/-- One turn of the client loop cleans the record of `c₀` and, up to the resources, leaves the
other records alone. -/
theorem cleanClient_findClient (c₀ c : C) :
    ((s.cleanClient e i c₀).findClient c).map ClientRec.sansResource =
      (if c = c₀ then (s.findClient c₀).bind (ClientRec.afterClean e i) else s.findClient c).map
        ClientRec.sansResource := by
  unfold cleanClient
  cases hr : s.findClient c₀ with
  | none =>
    split_ifs with hc
    · subst hc; simp [hr]
    · rfl
  | some r =>
    dsimp only
    by_cases he : e ≠ 0 ∧ r.lastTick ≤ e
    · have herase : (((s.deleteFromHeaps r).eraseClient c₀).findClient c).map
          ClientRec.sansResource = (if c = c₀ then none else s.findClient c).map
            ClientRec.sansResource := by
        rw [findClient_eraseClient, findClient_deleteFromHeaps]
      rw [if_pos he]
      have hleft : ((if r.info.weight = 0 then (s.deleteFromHeaps r).eraseClient c₀
          else if r.info.clientType ≠ .O then
            ((s.deleteFromHeaps r).eraseClient c₀).addTotalWgtAndUpdateClientRes (0 - r.info.weight)
          else (s.deleteFromHeaps r).eraseClient c₀).findClient c).map ClientRec.sansResource =
            (if c = c₀ then none else s.findClient c).map ClientRec.sansResource := by
        rw [← herase]
        split_ifs <;> simp only [sansResource_findClient_addTotalWgtAndUpdateClientRes]
      rw [hleft, Option.some_bind, ClientRec.afterClean_of_erase he]
    · rw [if_neg he]
      split_ifs with hi hc hc
      · rw [findClient_modifyClient _ (f := fun r => { r with idle := true }) fun _ h => h, if_pos hc,
          hr, Option.some_bind, ClientRec.afterClean_of_idle he hi]
        rfl
      · rw [findClient_modifyClient _ (f := fun r => { r with idle := true }) fun _ h => h, if_neg hc]
      · rw [Option.some_bind, ClientRec.afterClean_of_keep he hi, hc, hr]
      · rfl

/-- After the client loop has visited `done`, the records are those of `s` with the visited ones
cleaned, up to the resources. -/
def CleanedUpTo (e i : ℕ) (done : List C) (u : PriorityQueueBase C R) : Prop :=
  ∀ c, (u.findClient c).map ClientRec.sansResource =
    (if c ∈ done then (s.findClient c).bind (ClientRec.afterClean e i) else s.findClient c).map
      ClientRec.sansResource

theorem CleanedUpTo.cleanClient {done : List C} {u : PriorityQueueBase C R}
    (hu : s.CleanedUpTo e i done u) (c₀ : C) :
    s.CleanedUpTo e i (done ++ [c₀]) (u.cleanClient e i c₀) := by
  intro c
  rw [cleanClient_findClient]
  by_cases hc : c = c₀
  · subst hc
    rw [if_pos rfl, ClientRec.bind_afterClean_sansResource, hu c,
      ← ClientRec.bind_afterClean_sansResource, if_pos (List.mem_append_right _ (.head _))]
    split_ifs
    · rw [ClientRec.bind_afterClean_idem]
    · rfl
  · rw [if_neg hc, hu c]
    simp only [List.mem_append, List.mem_singleton, hc, or_false]

/-- **The client loop.** Over the ids `ids`, it cleans exactly the records of those ids. -/
theorem foldl_cleanClient_findClient (ids done : List C) (u : PriorityQueueBase C R)
    (hu : s.CleanedUpTo e i done u) :
    s.CleanedUpTo e i (done ++ ids) (ids.foldl (fun t c => t.cleanClient e i c) u) := by
  induction ids generalizing done u with
  | nil => simpa using hu
  | cons c₀ ids ih => simpa using ih (done ++ [c₀]) _ (hu.cleanClient s c₀)

theorem findClient_eq_none_of_not_mem {c : C} (hc : c ∉ s.clientMap.map (·.client)) :
    s.findClient c = none := by
  cases h : s.findClient c with
  | none => rfl
  | some r =>
    exact absurd (List.mem_map.mpr ⟨r, s.findClient_mem h, s.findClient_client h⟩) hc

/-- The client loop of `do_clean`, from `s` with its mark points replaced, cleans every record. -/
theorem sweep_findClient (pts : List (ℚ × ℕ)) (c : C) :
    ((if e > 0 ∨ i > 0 then
        (s.clientMap.map (·.client)).foldl (fun (t : PriorityQueueBase C R) c => t.cleanClient e i c)
          { s with cleanMarkPoints := pts }
      else { s with cleanMarkPoints := pts }).findClient c).map ClientRec.sansResource =
      ((s.findClient c).bind (ClientRec.afterClean e i)).map ClientRec.sansResource := by
  split
  · have h := s.foldl_cleanClient_findClient (e := e) (i := i) (s.clientMap.map (·.client)) []
      { s with cleanMarkPoints := pts } (fun _ => rfl) c
    rw [h, List.nil_append]
    split
    · rfl
    · rw [findClient_eq_none_of_not_mem s ‹_›]; rfl
  · have hkeep (r : ClientRec C R) : r.afterClean e i = some r :=
      ClientRec.afterClean_of_keep (by omega) (by omega)
    show (s.findClient c).map _ = _
    cases s.findClient c <;> simp [hkeep]

theorem sweep_cleanSettings (pts : List (ℚ × ℕ)) :
    (if e > 0 ∨ i > 0 then
        (s.clientMap.map (·.client)).foldl (fun (t : PriorityQueueBase C R) c => t.cleanClient e i c)
          { s with cleanMarkPoints := pts }
      else { s with cleanMarkPoints := pts }).cleanSettings = (s.idleAge, s.eraseAge, pts) := by
  split
  · exact foldl_keeps _ cleanSettings _ fun t c => cleanSettings_cleanClient t c
  · rfl

end Sweep

/-! ## `do_clean` -/

section DoClean

variable (s : PriorityQueueBase C R) (now : ℚ)

/-- What a `do_clean` at `now` from `s` leaves in `t`: the mark points younger than `erase_age`,
the same ages, and every record cleaned at the erase and idle points that the mark points give
(`eraseTickAt`, `idleTickAt`), up to the recomputed resources. -/
structure CleanedAt (t : PriorityQueueBase C R) : Prop where
  markPoints : t.cleanMarkPoints = (s.markPointsAt now).filter (now - s.eraseAge / 1000 < ·.1)
  ages : t.idleAge = s.idleAge ∧ t.eraseAge = s.eraseAge
  records : ∀ c, (t.findClient c).map ClientRec.sansResource =
    ((s.findClient c).bind (ClientRec.afterClean (s.eraseTickAt now) (s.idleTickAt now))).map
      ClientRec.sansResource

theorem doClean_eq_of_erasePointLoop {pts : List (ℚ × ℕ)} {ep : ℕ}
    (h : erasePointLoop (now - s.eraseAge / 1000) ((s.markPointsAt now).length + 1)
      (s.markPointsAt now) 0 = .ok (pts, ep)) :
    s.doClean now = .ok (if ep > 0 ∨ idlePointLoop (now - s.idleAge / 1000) pts 0 > 0 then
        (s.clientMap.map (·.client)).foldl (fun (t : PriorityQueueBase C R) c =>
          t.cleanClient ep (idlePointLoop (now - s.idleAge / 1000) pts 0) c)
          { s with cleanMarkPoints := pts }
      else { s with cleanMarkPoints := pts }) := by
  unfold markPointsAt at h
  simp only [doClean, h]
  rfl

/-- **`do_clean` on mark points in time order**, with a positive millisecond `erase_age`: it does
not fail, it keeps the mark points younger than `erase_age`, and it erases exactly the clients last
used at or before a nonzero `erase_point`, the tick of the newest point at least `erase_age` old,
and marks idle exactly the others last used at or before a nonzero `idle_point`, the tick of the
newest remaining point at least `idle_age` old. -/
theorem doClean_spec (hpos : 0 < s.eraseAge)
    (hord : (s.markPointsAt now).Pairwise fun p q => p.1 ≤ q.1) :
    ∃ t, s.doClean now = .ok t ∧ s.CleanedAt now t := by
  have hlate : ∃ p ∈ s.markPointsAt now, now - s.eraseAge / 1000 < p.1 :=
    ⟨(now, s.tick), by simp [markPointsAt], by
      have : (0 : ℚ) < s.eraseAge := by exact_mod_cast hpos
      simp only [sub_lt_self_iff]; positivity⟩
  obtain ⟨ht, hd⟩ := takeWhile_dropWhile_of_pairwise (now - s.eraseAge / 1000) hord
  have hloop := erasePointLoop_eq_ok 0 (Nat.le_succ _) hlate
  rw [ht, hd] at hloop
  have hord' : ((s.markPointsAt now).filter (now - s.eraseAge / 1000 < ·.1)).Pairwise
      fun p q => p.1 ≤ q.1 := hord.sublist (List.filter_sublist _)
  have hidle := (takeWhile_dropWhile_of_pairwise (now - s.idleAge / 1000) hord').1
  have hip : idlePointLoop (now - s.idleAge / 1000)
      ((s.markPointsAt now).filter (now - s.eraseAge / 1000 < ·.1)) 0 = s.idleTickAt now := by
    rw [idlePointLoop_eq, hidle]; rfl
  have hset := sweep_cleanSettings s (e := s.eraseTickAt now) (i := s.idleTickAt now)
    ((s.markPointsAt now).filter (now - s.eraseAge / 1000 < ·.1))
  simp only [cleanSettings, Prod.mk.injEq] at hset
  refine ⟨_, doClean_eq_of_erasePointLoop s now hloop, ?_⟩
  rw [hip]
  exact ⟨hset.2.2, ⟨hset.1, hset.2.1⟩, fun c => sweep_findClient s _ c⟩

/-- With `erase_age` truncated to 0, on mark points none later than `now`, `do_clean` pops every
point, the one just appended included, and reads the front of the emptied deque. -/
theorem doClean_eq_error (hzero : s.eraseAge ≤ 0) (hbefore : ∀ p ∈ s.cleanMarkPoints, p.1 ≤ now) :
    s.doClean now = .error "clean_mark_points.front() on an empty deque" := by
  have hcut : now ≤ now - s.eraseAge / 1000 := by
    have : (s.eraseAge : ℚ) ≤ 0 := by exact_mod_cast hzero
    linarith
  have hall : ∀ p ∈ s.markPointsAt now, p.1 ≤ now - s.eraseAge / 1000 := by
    intro p hp
    rcases List.mem_append.mp hp with hp | hp
    · exact (hbefore p hp).trans hcut
    · rw [List.mem_singleton.mp hp]; exact hcut
  have hloop := erasePointLoop_eq_error 0
    (by omega : (s.markPointsAt now).length < (s.markPointsAt now).length + 1) hall
  unfold markPointsAt at hloop
  simp only [doClean, hloop]
  rfl

end DoClean

/-! ## The other operations

No operation writes the ages, and only `do_clean` writes the mark points. -/

section Frame

variable (s : PriorityQueueBase C R)

@[simp] theorem cleanSettings_modifyClient (c : C) (f : ClientRec C R → ClientRec C R) :
    (s.modifyClient c f).cleanSettings = s.cleanSettings := rfl

@[simp] theorem cleanSettings_setCompensated (c : C) (info : ClientInfo) :
    (s.setCompensated c info).cleanSettings = s.cleanSettings := rfl

@[simp] theorem cleanSettings_heapPush (h : HeapSel) (c : C) :
    (s.heapPush h c).cleanSettings = s.cleanSettings := rfl

@[simp] theorem cleanSettings_heapAdjust (h : HeapSel) (c : C) :
    (s.heapAdjust h c).cleanSettings = s.cleanSettings := rfl

@[simp] theorem cleanSettings_heapPromote (h : HeapSel) (c : C) :
    (s.heapPromote h c).cleanSettings = s.cleanSettings := rfl

@[simp] theorem cleanSettings_heapDemote (h : HeapSel) (c : C) :
    (s.heapDemote h c).cleanSettings = s.cleanSettings := rfl

@[simp] theorem cleanSettings_heapDelete (h : HeapSel) (c : C) :
    (s.heapDelete h c).cleanSettings = s.cleanSettings := rfl

@[simp] theorem cleanSettings_insertClient (r : ClientRec C R) :
    (s.insertClient r).cleanSettings = s.cleanSettings := rfl

@[simp] theorem cleanSettings_adjustClass (cls : ClientType) (c : C) :
    (s.adjustClass cls c).cleanSettings = s.cleanSettings := by
  simp [adjustClass]

@[simp] theorem cleanSettings_deleteFromHeaps (r : ClientRec C R) :
    (s.deleteFromHeaps r).cleanSettings = s.cleanSettings := by
  simp [deleteFromHeaps]

@[simp] theorem cleanSettings_moveToAnotherHeap (c : C) (info : ClientInfo) :
    (s.moveToAnotherHeap c info).cleanSettings = s.cleanSettings := by
  unfold moveToAnotherHeap
  split
  · rfl
  · simp only [cleanSettings_forHeaps, cleanSettings_heapPush, cleanSettings_heapAdjust,
      implies_true]
    split <;> simp

@[simp] theorem cleanSettings_compensate (c : C) :
    (s.compensate c).cleanSettings = s.cleanSettings := by
  unfold compensate
  split <;> rfl

@[simp] theorem cleanSettings_installInfo (c : C) (old temp : ClientInfo) :
    (s.installInfo c old temp).cleanSettings = s.cleanSettings := by
  unfold installInfo
  split_ifs <;> simp

@[simp] theorem cleanSettings_checkCompensation (c : C) :
    (s.checkCompensation c).cleanSettings = s.cleanSettings := by
  unfold checkCompensation
  split
  · split_ifs <;> simp
  · rfl

@[simp] theorem cleanSettings_rollClient (infoF : C → ClientInfo) (c : C) :
    (s.rollClient infoF c).cleanSettings = s.cleanSettings := by
  unfold rollClient
  split <;> simp

theorem cleanSettings_windowRollover (infoF : C → ClientInfo) (now : ℚ) :
    (s.windowRollover infoF now).cleanSettings = s.cleanSettings :=
  foldl_keeps _ _ _ fun t c => cleanSettings_rollClient t infoF c

theorem cleanSettings_promoteWalkLoop (lh ph : HeapSel) (now : ℚ) :
    ∀ (fuel : ℕ) (s : PriorityQueueBase C R),
      (promoteWalkLoop lh ph now fuel s).cleanSettings = s.cleanSettings
  | 0, _ => rfl
  | fuel + 1, s => by
    unfold promoteWalkLoop
    repeat' split
    all_goals simp [cleanSettings_promoteWalkLoop lh ph now fuel]

theorem cleanSettings_limitBreak {n : NextReq} {t : PriorityQueueBase C R}
    (h : s.limitBreak = some (n, t)) : t.cleanSettings = s.cleanSettings := by
  unfold limitBreak at h
  repeat' split at h
  all_goals cases h <;> rfl

theorem cleanSettings_dispatchLadder {now : ℚ} {n : NextReq} {t : PriorityQueueBase C R}
    (h : s.dispatchLadder now = .ok (n, t)) : t.cleanSettings = s.cleanSettings := by
  have hw (lh ph : HeapSel) (u : PriorityQueueBase C R) :
      (u.promoteWalk lh ph now).cleanSettings = u.cleanSettings :=
    cleanSettings_promoteWalkLoop lh ph now _ u
  unfold dispatchLadder at h
  dsimp only at h
  repeat' split at h
  all_goals first
    | (cases h; simp [hw])
    | (cases h; rw [cleanSettings_limitBreak _ ‹_›]; simp [hw])
    | (obtain ⟨n', -, he⟩ := except_map_eq_ok.mp h; cases he; simp [hw])

theorem cleanSettings_doNextRequest {infoF : C → ClientInfo} {now : ℚ} {n : NextReq}
    {t : PriorityQueueBase C R} (h : s.doNextRequest infoF now = .ok (n, t)) :
    t.cleanSettings = s.cleanSettings := by
  unfold doNextRequest at h
  split at h
  · cases h; rfl
  · rw [cleanSettings_dispatchLadder _ h]
    split <;> simp [cleanSettings_windowRollover]

theorem cleanSettings_reduceReservationTags {client : ClientRec C R} {t : PriorityQueueBase C R}
    (h : s.reduceReservationTags client = .ok t) : t.cleanSettings = s.cleanSettings := by
  unfold reduceReservationTags at h
  dsimp only at h
  split at h
  · cases h; simp
  · cases h

theorem cleanSettings_repairHeaps {top : ClientRec C R} {cls : ClientType} {isDelta : Bool}
    {t : PriorityQueueBase C R} (h : s.repairHeaps top cls isDelta = .ok t) :
    t.cleanSettings = s.cleanSettings := by
  unfold repairHeaps at h
  split at h
  · obtain ⟨v, hv, rfl⟩ := except_map_eq_ok.mp h
    have hv' : v.cleanSettings = s.cleanSettings := by
      split at hv
      · exact cleanSettings_reduceReservationTags _ hv
      · cases hv; rfl
    simp [hv']
  all_goals cases h; simp

theorem cleanSettings_popProcessRequest {hs : HeapSel} {isDelta : Bool} {x : C × R}
    {t : PriorityQueueBase C R} (h : s.popProcessRequest hs isDelta = .ok (x, t)) :
    t.cleanSettings = s.cleanSettings := by
  unfold popProcessRequest at h
  split at h
  · cases h
  split at h
  · cases h
  obtain ⟨top', -, h⟩ := except_bind_eq_ok.mp h
  obtain ⟨info, -, h⟩ := except_bind_eq_ok.mp h
  obtain ⟨u, hu, h⟩ := except_bind_eq_ok.mp h
  cases h
  simpa using cleanSettings_repairHeaps _ hu

theorem cleanSettings_pullRequest {infoF : C → ClientInfo} {now : ℚ} {p : PullReq C R}
    {t : PriorityQueueBase C R} (h : s.pullRequest infoF now = .ok (p, t)) :
    t.cleanSettings = s.cleanSettings := by
  unfold pullRequest at h
  obtain ⟨⟨n, u⟩, hu, h⟩ := except_bind_eq_ok.mp h
  rw [← cleanSettings_doNextRequest _ hu]
  dsimp only at h
  repeat' split at h
  all_goals first
    | (cases h; rfl)
    | (obtain ⟨⟨x, v⟩, hv, he⟩ := except_bind_eq_ok.mp h; cases he
       exact cleanSettings_popProcessRequest _ hv)
    | cases h

@[simp] theorem cleanSettings_createClient (info : ClientInfo) (c : C) :
    (s.createClient info c).cleanSettings = s.cleanSettings := by
  unfold createClient
  split <;> simp

@[simp] theorem cleanSettings_realignIdle (c : C) (time : ℚ) :
    (s.realignIdle c time).cleanSettings = s.cleanSettings := by
  unfold realignIdle
  repeat' split
  all_goals rfl

theorem cleanSettings_admitClient (infoF : C → ClientInfo) (c : C) (time : ℚ) :
    (s.admitClient infoF c time).cleanSettings = s.cleanSettings := by
  unfold admitClient
  dsimp only
  rw [cleanSettings_realignIdle]
  split
  · rfl
  · rw [cleanSettings_createClient]; rfl

theorem cleanSettings_doAddRequest {infoF : C → ClientInfo} {req : R} {c : C} {p : ReqParams}
    {time : ℚ} {t : PriorityQueueBase C R} (h : s.doAddRequest infoF req c p time = .ok t) :
    t.cleanSettings = s.cleanSettings := by
  unfold doAddRequest at h
  dsimp only at h
  split at h
  · cases h
  · obtain ⟨⟨client, tag⟩, -, he⟩ := except_map_eq_ok.mp h
    cases he
    rw [← cleanSettings_admitClient s infoF c time]
    unfold queueRequest
    dsimp only
    split <;> simp

theorem cleanSettings_removeByReqFilter (f : List R → R → Bool) (vb : Bool) :
    (s.removeByReqFilter f vb).1.cleanSettings = s.cleanSettings :=
  List.foldlRecOn (motive := fun acc => acc.1.cleanSettings = s.cleanSettings) _ _ _ rfl
    fun (acc : PriorityQueueBase C R × Bool × (List R × List (C × R))) h c _ => by
      rw [← h]
      unfold filterClient
      split
      · rfl
      · dsimp only
        split <;> simp

theorem cleanSettings_removeByClient (c : C) (rev : Bool) :
    (s.removeByClient c rev).1.cleanSettings = s.cleanSettings := by
  unfold removeByClient
  split
  · rfl
  · dsimp only
    split <;> simp

theorem cleanSettings_updateClientInfo (infoF : C → ClientInfo) (c : C) :
    (s.updateClientInfo infoF c).cleanSettings = s.cleanSettings := by
  unfold updateClientInfo
  split
  · rfl
  · dsimp only
    split <;> simp

/-- **The frame of a step.** No operation changes the ages, and none but `do_clean` changes the
mark points. -/
theorem step_cleanSettings {op : Op C R} {out : Out C R} {t : PriorityQueueBase C R}
    (h : s.step op = .ok (out, t)) (hop : op.cleanTime = none) :
    t.cleanSettings = s.cleanSettings := by
  cases op with
  | addRequest => exact cleanSettings_doAddRequest _ (step_eq_ok s h).2
  | pullRequest =>
    obtain ⟨p, -, hp⟩ := step_eq_ok s h
    exact cleanSettings_pullRequest _ hp
  | scheduleRequest =>
    obtain ⟨p, -, hp⟩ := step_eq_ok s h
    rcases scheduleRequest_eq_ok s hp with ⟨-, -, rfl⟩ | ⟨-, hp⟩
    · rfl
    · exact cleanSettings_pullRequest _ hp
  | removeByClient c rev => cases h; exact cleanSettings_removeByClient _ c rev
  | removeByReqFilter f vb => cases h; exact cleanSettings_removeByReqFilter _ f vb
  | updateClientInfo infoF c => cases h; exact cleanSettings_updateClientInfo _ infoF c
  | updateClientInfos => cases h; rfl
  | doClean now => cases hop

end Frame

/-! ## Runs -/

section Sequences

variable {s t : PriorityQueueBase C R} {now : ℚ}

theorem CleanedAt.marksBefore (h : s.CleanedAt now t) (hs : s.MarksBefore now) :
    t.MarksBefore now := by
  have hsub : t.cleanMarkPoints.Sublist (s.markPointsAt now) :=
    h.markPoints ▸ List.filter_sublist _
  refine ⟨hs.markPointsAt.sublist hsub, fun p hp => ?_⟩
  rcases List.mem_append.mp (hsub.subset hp) with hp | hp
  · exact hs.before p hp
  · rw [List.mem_singleton.mp hp]

/-- **The step lemma.** From mark points in time order and no later than `now`, with a positive
millisecond `erase_age`, a step keeps `erase_age`, and keeps the mark points in time order and no
later than its own time if it is a `do_clean` at a time no earlier than `now`, than `now` if it is
any other operation. -/
theorem step_marksBefore (hs : s.MarksBefore now) (hpos : 0 < s.eraseAge) {op : Op C R}
    {out : Out C R} (h : s.step op = .ok (out, t)) (hop : ∀ x, op.cleanTime = some x → now ≤ x) :
    t.MarksBefore (op.cleanTime.getD now) ∧ t.eraseAge = s.eraseAge := by
  cases hc : op.cleanTime with
  | none =>
    have ht := step_cleanSettings s h hc
    exact ⟨hs.of_cleanSettings ht, congrArg (·.2.1) ht⟩
  | some x =>
    cases op with
    | doClean y =>
      cases hc
      obtain ⟨t', ht', hcl⟩ := doClean_spec s x hpos (hs.mono (hop x rfl)).markPointsAt
      obtain rfl : t = t' := Except.ok.inj ((step_eq_ok s h).2.symm.trans ht')
      exact ⟨hcl.marksBefore (hs.mono (hop x rfl)), hcl.ages.2⟩
    | _ => cases hc

/-- **Every `do_clean` of a run.** From mark points in time order and no later than `t₀`, with a
positive millisecond `erase_age`: after any run whose `do_clean` calls come at nondecreasing times
from `t₀` on, a `do_clean` at a time no earlier than theirs does not fail and cleans as
`doClean_spec` says. -/
theorem run_doClean_spec {s₀ : PriorityQueueBase C R} {t₀ : ℚ} (h₀ : s₀.MarksBefore t₀)
    (hpos : 0 < s₀.eraseAge) {ops : List (Op C R)} {outs : List (Out C R)}
    (hrun : s₀.run ops = .ok (outs, s))
    (hchain : List.Chain (· ≤ ·) t₀ (ops.filterMap Op.cleanTime ++ [now])) :
    ∃ t, s.doClean now = .ok t ∧ s.CleanedAt now t := by
  induction ops generalizing s₀ t₀ outs with
  | nil =>
    cases hrun
    exact doClean_spec s now hpos (h₀.mono (List.chain_cons.mp hchain).1).markPointsAt
  | cons op ops ih =>
    obtain ⟨out, s₁, outs', hstep, hrest, -⟩ := run_cons_eq_ok hrun
    have hop : ∀ x, op.cleanTime = some x → t₀ ≤ x := fun x hx => by
      rw [List.filterMap_cons, hx, List.cons_append] at hchain
      exact (List.chain_cons.mp hchain).1
    obtain ⟨hm, he⟩ := step_marksBefore h₀ hpos hstep hop
    refine ih hm (he ▸ hpos) hrest ?_
    cases hx : op.cleanTime with
    | none => simpa [List.filterMap_cons, hx] using hchain
    | some x =>
      rw [List.filterMap_cons, hx, List.cons_append] at hchain
      exact (List.chain_cons.mp hchain).2

end Sequences

section Runs

attribute [local semireducible] Rat.add Rat.mul Rat.inv Rat.sub

/-- Ages of half a millisecond pass the constructor's assertions and truncate to 0: the first
`do_clean`, at any time, pops the point it appended and reads the front of the emptied deque. -/
theorem subMillisecond_doClean_reads_empty_front (now : ℚ) :
    ∃ s : PriorityQueueBase ℕ ℕ, init 2 (1 / 2000) (1 / 2000) 0 false 0 10 1 = .ok s ∧
      s.doClean now = .error "clean_mark_points.front() on an empty deque" :=
  ⟨_, rfl, doClean_eq_error _ _ (by decide) fun _ h => by cases h⟩

end Runs

end PriorityQueueBase

end DmclockServer
