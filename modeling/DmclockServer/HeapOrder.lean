import DmclockServer.Heap
import Mathlib.Data.List.Nodup
import Mathlib.Order.Basic

/-!
# The heap order

The comparators of the scheduler's heaps all order clients by a key in a linear order
(`ClientCompare`, see `Compare`). This module states the heap property for such a comparator and
proves what the spec asks of the heap: `push`, `remove` and `adjust` keep the heap ordered after
any change of one element's key, `promote` after a key that did not increase, `demote` after a key
that did not decrease, and the top of an ordered heap has the least key.

The sift lemmas follow the usual shape: `UpOrder` and `DownOrder` say that the array is ordered
except around the slot being sifted, and one swap keeps that shape one slot further on.
-/

namespace DmclockServer

namespace IndIntruHeap

variable {α κ : Type} [LinearOrder κ]

/-- The comparator of a heap ordered by `key`: `a` precedes `b` when its key is smaller. -/
def ltOf (key : α → κ) (a b : α) : Bool := decide (key a < key b)

@[simp] theorem ltOf_eq_true {key : α → κ} {a b : α} : ltOf key a b = true ↔ key a < key b := by
  simp [ltOf]

/-! ## Positions -/

section Positions

variable {K : ℕ}

theorem parent_lt (K : ℕ) {j : ℕ} (hj : 0 < j) : parent K j < j :=
  lt_of_le_of_lt (Nat.div_le_self _ _) (by omega)

theorem child_range (hK : 0 < K) {c i : ℕ} (hc : 0 < c) (hp : parent K c = i) :
    K * i + 1 ≤ c ∧ c ≤ K * i + K := by
  unfold parent at hp
  have hd := Nat.div_add_mod (c - 1) K
  have hm := Nat.mod_lt (c - 1) hK
  subst hp
  omega

theorem parent_eq_of_range {c i : ℕ} (h1 : K * i + 1 ≤ c) (h2 : c ≤ K * i + K) :
    parent K c = i := by
  unfold parent
  apply Nat.div_eq_of_lt_le <;> rw [Nat.mul_comm] <;> [omega; (rw [Nat.mul_add]; omega)]

end Positions

theorem getElem?_swap {l : List α} {i j : ℕ} (hi : i < l.length) (hj : j < l.length) (k : ℕ) :
    (swap l i j)[k]? = if k = j then l[i]? else if k = i then l[j]? else l[k]? := by
  unfold swap
  rw [List.getElem?_eq_getElem hi, List.getElem?_eq_getElem hj]
  by_cases hkj : k = j
  · subst hkj
    rw [if_pos rfl, List.getElem?_set_self (by simpa using hj)]
  · rw [if_neg hkj, List.getElem?_set_ne (Ne.symm hkj)]
    by_cases hki : k = i
    · subst hki
      rw [if_pos rfl, List.getElem?_set_self hi]
    · rw [if_neg hki, List.getElem?_set_ne (Ne.symm hki)]

theorem lt_length_of_getElem? {l : List α} {i : ℕ} {a : α} (h : l[i]? = some a) : i < l.length :=
  (List.getElem?_eq_some_iff.mp h).1

theorem mem_of_getElem? {l : List α} {i : ℕ} {a : α} (h : l[i]? = some a) : a ∈ l := by
  obtain ⟨hi, rfl⟩ := List.getElem?_eq_some_iff.mp h
  exact List.getElem_mem hi

/-! ## The order and its two relaxations -/

section Order

variable (K : ℕ) (key : α → κ)

/-- The heap property: no element has a smaller key than its parent. -/
def Ordered (l : List α) : Prop :=
  ∀ j a b, 0 < j → l[j]? = some a → l[parent K j]? = some b → key b ≤ key a

/-- The heap property over the slots of the array only. -/
theorem ordered_iff_forall_lt {l : List α} : Ordered K key l ↔
    ∀ j < l.length, 0 < j → ∀ a ∈ l[j]?, ∀ b ∈ l[parent K j]?, key b ≤ key a :=
  ⟨fun ho j _ hj a ha b hb => ho j a b hj ha hb,
    fun H j a b hj ha hb => H j (lt_length_of_getElem? ha) hj a ha b hb⟩

instance (l : List α) : Decidable (Ordered K key l) :=
  decidable_of_iff _ (ordered_iff_forall_lt K key).symm

/-- What `sift_up` from slot `i` needs: every pair whose child is not `i` is in order, and the
children of `i` are at or after `i`'s parent. -/
structure UpOrder (l : List α) (i : ℕ) : Prop where
  except : ∀ j a b, 0 < j → j ≠ i → l[j]? = some a → l[parent K j]? = some b → key b ≤ key a
  grand : ∀ c a b, 0 < c → parent K c = i → 0 < i → l[c]? = some a → l[parent K i]? = some b →
    key b ≤ key a

/-- What `sift_down` from slot `i` needs: every pair whose parent is not `i` is in order, and the
children of `i` are at or after `i`'s parent. -/
structure DownOrder (l : List α) (i : ℕ) : Prop where
  except : ∀ j a b, 0 < j → parent K j ≠ i → l[j]? = some a → l[parent K j]? = some b →
    key b ≤ key a
  grand : ∀ c a b, 0 < c → parent K c = i → 0 < i → l[c]? = some a → l[parent K i]? = some b →
    key b ≤ key a

/-- What `sift` from slot `i` needs: every pair away from `i` is in order, and the children of `i`
are at or after `i`'s parent. -/
structure NearOrder (l : List α) (i : ℕ) : Prop where
  except : ∀ j a b, 0 < j → j ≠ i → parent K j ≠ i → l[j]? = some a →
    l[parent K j]? = some b → key b ≤ key a
  grand : ∀ c a b, 0 < c → parent K c = i → 0 < i → l[c]? = some a → l[parent K i]? = some b →
    key b ≤ key a

end Order

variable {K : ℕ} {key : α → κ}

theorem UpOrder.ordered {l : List α} {i : ℕ} (o : UpOrder K key l i)
    (stop : ∀ a b, 0 < i → l[i]? = some a → l[parent K i]? = some b → key b ≤ key a) :
    Ordered K key l := by
  intro j a b hj ha hb
  by_cases hji : j = i
  · subst hji; exact stop a b hj ha hb
  · exact o.except j a b hj hji ha hb

theorem DownOrder.ordered {l : List α} {i : ℕ} (o : DownOrder K key l i)
    (stop : ∀ c a b, 0 < c → parent K c = i → l[c]? = some a → l[i]? = some b → key b ≤ key a) :
    Ordered K key l := by
  intro j a b hj ha hb
  by_cases hji : parent K j = i
  · rw [hji] at hb; exact stop j a b hj hji ha hb
  · exact o.except j a b hj hji ha hb

/-- One step of `sift_up` keeps its premise, one slot nearer the root. -/
theorem UpOrder.swap {l : List α} {i : ℕ} (o : UpOrder K key l i) (hi0 : 0 < i)
    {a b : α} (ha : l[i]? = some a) (hb : l[parent K i]? = some b) (hlt : key a < key b) :
    UpOrder K key (swap l i (parent K i)) (parent K i) := by
  have hpi := parent_lt K hi0
  have hil := lt_length_of_getElem? ha
  have hpl := lt_length_of_getElem? hb
  constructor
  · intro j a' b' hj hjp ha' hb'
    rw [getElem?_swap hil hpl] at ha' hb'
    by_cases hji : j = i
    · subst hji
      simp only [hjp, if_false, if_true, hb, ha, Option.some.injEq] at ha' hb'
      subst ha' hb'
      exact le_of_lt hlt
    · simp only [hjp, hji, if_false] at ha'
      by_cases hq : parent K j = parent K i
      · simp only [hq, if_true, ha, Option.some.injEq] at hb'
        subst hb'
        exact le_of_lt (lt_of_lt_of_le hlt (o.except j a' b hj hji ha' (hq ▸ hb)))
      · by_cases hq' : parent K j = i
        · simp only [hq, hq', show i ≠ parent K i by omega, if_false, if_true, hb,
            Option.some.injEq] at hb'
          subst hb'
          exact o.grand j a' b hj hq' hi0 ha' hb
        · simp only [hq, hq', if_false] at hb'
          exact o.except j a' b' hj hji ha' hb'
  · intro c a' b' hc hcp hp0 ha' hb'
    have hpp := parent_lt K hp0
    have hcgt : parent K i < c := hcp ▸ parent_lt K hc
    rw [getElem?_swap hil hpl] at ha' hb'
    simp only [show parent K (parent K i) ≠ parent K i by omega,
      show parent K (parent K i) ≠ i by omega, if_false] at hb'
    have hup := o.except (parent K i) b b' hp0 (by omega) hb hb'
    by_cases hci : c = i
    · subst hci
      simp only [show c ≠ parent K c by omega, if_false, if_true, hb, Option.some.injEq] at ha'
      exact ha' ▸ hup
    · simp only [show c ≠ parent K i by omega, hci, if_false] at ha'
      exact le_trans hup (o.except c a' b hc hci ha' (hcp ▸ hb))

/-- One step of `sift_down` to a least child `m` keeps its premise, one slot further down. -/
theorem DownOrder.swap {l : List α} {i m : ℕ} (o : DownOrder K key l i) (hm0 : 0 < m)
    (hmi : parent K m = i) {a b : α} (ha : l[m]? = some a) (hb : l[i]? = some b)
    (hlt : key a < key b) (hmin : ∀ c a', 0 < c → parent K c = i → l[c]? = some a' → key a ≤ key a') :
    DownOrder K key (swap l i m) m := by
  have him : i < m := hmi ▸ parent_lt K hm0
  have hil := lt_length_of_getElem? hb
  have hml := lt_length_of_getElem? ha
  constructor
  · intro j a' b' hj hjm ha' hb'
    rw [getElem?_swap hil hml] at ha' hb'
    by_cases hjm' : j = m
    · subst hjm'
      simp only [if_true, hb, Option.some.injEq] at ha'
      simp only [hmi, show i ≠ j by omega, if_false, if_true, ha, Option.some.injEq] at hb'
      subst ha' hb'
      exact le_of_lt hlt
    · by_cases hji : j = i
      · subst hji
        have hpj := parent_lt K hj
        simp only [hjm', if_false, if_true, ha, Option.some.injEq] at ha'
        simp only [show parent K j ≠ m by omega, show parent K j ≠ j by omega, if_false] at hb'
        exact ha' ▸ o.grand m a b' hm0 hmi hj ha hb'
      · simp only [hjm', hji, if_false] at ha'
        by_cases hq : parent K j = i
        · simp only [hjm, hq, show i ≠ m by omega, if_false, if_true, ha,
            Option.some.injEq] at hb'
          exact hb' ▸ hmin j a' hj hq ha'
        · simp only [hjm, hq, if_false] at hb'
          exact o.except j a' b' hj hq ha' hb'
  · intro c a' b' hc hcm _ ha' hb'
    have hcgt : m < c := hcm ▸ parent_lt K hc
    rw [getElem?_swap hil hml] at ha' hb'
    simp only [show c ≠ m by omega, show c ≠ i by omega, if_false] at ha'
    simp only [if_true, hb, hmi, show i ≠ m by omega, if_false, ha, Option.some.injEq] at hb'
    subst hb'
    exact o.except c a' a hc (by omega) ha' (hcm ▸ ha)

/-! ## The least child -/

section MinChild

variable (key) in
theorem minChildStep_spec {l : List α} {m k : ℕ} {b : α} (hb : l[m]? = some b) :
    ∃ a, l[minChildStep (ltOf key) l m k]? = some a ∧ key a ≤ key b ∧
      ∀ a', l[k]? = some a' → key a ≤ key a' := by
  unfold minChildStep
  cases hk : l[k]? with
  | none => exact ⟨b, by simp [hb], le_refl _, by simp⟩
  | some a' =>
    simp only [hb]
    by_cases hlt : key a' < key b
    · exact ⟨a', by simp [hlt, hk], le_of_lt hlt, by simp⟩
    · exact ⟨b, by simp [hlt, hb], le_refl _, by simpa using hlt⟩

variable (key) in
theorem foldl_minChildStep_spec (l : List α) (ks : List ℕ) :
    ∀ {m : ℕ} {b : α}, l[m]? = some b →
      ∃ a, l[ks.foldl (minChildStep (ltOf key) l) m]? = some a ∧ key a ≤ key b ∧
        ∀ k ∈ ks, ∀ a', l[k]? = some a' → key a ≤ key a' := by
  induction ks with
  | nil => intro m b hb; exact ⟨b, hb, le_refl _, by simp⟩
  | cons k ks ih =>
    intro m b hb
    obtain ⟨c, hc, hcb, hck⟩ := minChildStep_spec key (k := k) hb
    obtain ⟨a, ha, hac, hks⟩ := ih hc
    refine ⟨a, ha, le_trans hac hcb, ?_⟩
    intro k' hk' a' ha'
    rcases List.mem_cons.mp hk' with rfl | hk'
    · exact le_trans hac (hck a' ha')
    · exact hks k' hk' a' ha'

theorem foldl_minChildStep_mem (l : List α) (lt : α → α → Bool) (ks : List ℕ) (m : ℕ) :
    ks.foldl (minChildStep lt l) m = m ∨ ks.foldl (minChildStep lt l) m ∈ ks := by
  induction ks generalizing m with
  | nil => exact .inl rfl
  | cons k ks ih =>
    simp only [List.foldl_cons, List.mem_cons]
    have hstep : minChildStep lt l m k = m ∨ minChildStep lt l m k = k := by
      unfold minChildStep; split
      · split <;> simp
      · exact .inl rfl
    rcases ih (minChildStep lt l m k) with h | h
    · rw [h]
      rcases hstep with h' | h'
      · exact .inl h'
      · exact .inr (.inl h')
    · exact .inr (.inr h)

/-- The least child is a child. -/
theorem minChild_child (hK : 0 < K) (lt : α → α → Bool) (l : List α) (i : ℕ) :
    0 < minChild K lt l i ∧ parent K (minChild K lt l i) = i := by
  have hr : lhs K i ≤ minChild K lt l i ∧ minChild K lt l i ≤ K * i + K := by
    rcases foldl_minChildStep_mem l lt (List.range' (lhs K i + 1) (K - 1)) (lhs K i) with h | h
    · unfold minChild; rw [h]; unfold lhs; omega
    · unfold minChild
      obtain ⟨t, ht, he⟩ := List.mem_range'.mp h
      rw [he]; unfold lhs; omega
  unfold lhs at hr
  exact ⟨by omega, parent_eq_of_range hr.1 hr.2⟩

theorem children_of_range (hK : 0 < K) {i c : ℕ} (hc : 0 < c) (hp : parent K c = i) :
    c = lhs K i ∨ c ∈ List.range' (lhs K i + 1) (K - 1) := by
  have := child_range hK hc hp
  by_cases h : c = lhs K i
  · exact .inl h
  · right
    rw [List.mem_range']
    exact ⟨c - (lhs K i + 1), by unfold lhs at h ⊢; omega, by unfold lhs at h ⊢; omega⟩

variable (key) in
/-- Every child of `i` in the array has a key at or after the least child's. -/
theorem minChild_le (hK : 0 < K) {l : List α} {i : ℕ} {b : α} (hb : l[lhs K i]? = some b) :
    ∃ a, l[minChild K (ltOf key) l i]? = some a ∧
      ∀ c a', 0 < c → parent K c = i → l[c]? = some a' → key a ≤ key a' := by
  obtain ⟨a, ha, hab, hks⟩ := foldl_minChildStep_spec key l
    (List.range' (lhs K i + 1) (K - 1)) hb
  refine ⟨a, ha, fun c a' hc hp ha' => ?_⟩
  rcases children_of_range hK hc hp with rfl | hm
  · rw [hb] at ha'; cases ha'; exact hab
  · exact hks c hm a' ha'

/-- When the first child is past the end, so are all the children. -/
theorem children_none {l : List α} {i : ℕ} (hK : 0 < K) (hb : l[lhs K i]? = none) {c : ℕ}
    (hc : 0 < c) (hp : parent K c = i) : l[c]? = none := by
  have := child_range hK hc hp
  have hl := List.getElem?_eq_none_iff.mp hb
  unfold lhs at hl
  exact List.getElem?_eq_none (by omega)

theorem minChild_min (hK : 0 < K) {l : List α} {i : ℕ} {a : α}
    (ha : l[minChild K (ltOf key) l i]? = some a) :
    ∀ c a', 0 < c → parent K c = i → l[c]? = some a' → key a ≤ key a' := by
  intro c a' hc hp ha'
  cases hl : l[lhs K i]? with
  | none => rw [children_none hK hl hc hp] at ha'; cases ha'
  | some b0 =>
    obtain ⟨a0, ha0, hle⟩ := minChild_le key hK hl
    rw [ha] at ha0
    cases ha0
    exact hle c a' hc hp ha'

end MinChild

/-! ## The sifts restore the order -/

theorem siftUpLoop_ordered : ∀ (fuel : ℕ) (l : List α) (i : ℕ), i ≤ fuel →
    UpOrder K key l i → Ordered K key (siftUpLoop K (ltOf key) fuel l i) := by
  intro fuel
  induction fuel with
  | zero =>
    intro l i hi o
    exact o.ordered (fun _ _ h0 => absurd h0 (by omega))
  | succ fuel ih =>
    intro l i hi o
    unfold siftUpLoop
    split
    · exact o.ordered (fun _ _ h0 => absurd h0 (by omega))
    · rename_i h0
      have hi0 : 0 < i := Nat.pos_of_ne_zero h0
      split
      · rename_i a b ha hb
        split
        · rename_i hlt
          have hpi := parent_lt K hi0
          exact ih _ _ (by omega) (o.swap hi0 ha hb (by simpa using hlt))
        · rename_i hlt
          refine o.ordered (fun a' b' _ ha' hb' => ?_)
          rw [ha] at ha'; rw [hb] at hb'; cases ha'; cases hb'
          simpa using hlt
      · rename_i hnone
        exact o.ordered (fun a' b' _ ha' hb' => (hnone a' b' ha' hb').elim)

theorem siftDownLoop_ordered (hK : 0 < K) : ∀ (fuel : ℕ) (l : List α) (i : ℕ),
    l.length ≤ fuel + i → DownOrder K key l i →
      Ordered K key (siftDownLoop K (ltOf key) fuel l i) := by
  intro fuel
  induction fuel with
  | zero =>
    intro l i hi o
    refine o.ordered (fun c a b _ _ _ hb => ?_)
    rw [List.getElem?_eq_none (by omega)] at hb; cases hb
  | succ fuel ih =>
    intro l i hi o
    obtain ⟨hm0, hmi⟩ := minChild_child hK (ltOf key) l i
    unfold siftDownLoop
    split
    · rename_i a b ha hb
      have hmin := minChild_min hK ha
      split
      · rename_i hlt
        have him : i < minChild K (ltOf key) l i := by
          have := parent_lt K hm0; rwa [hmi] at this
        exact ih _ _ (by rw [length_swap]; omega) (o.swap hm0 hmi ha hb (by simpa using hlt) hmin)
      · rename_i hlt
        refine o.ordered (fun c a' b' hc hp ha' hb' => ?_)
        rw [hb] at hb'; cases hb'
        exact le_trans (by simpa using hlt) (hmin c a' hc hp ha')
    · rename_i hnone
      refine o.ordered (fun c a' b' hc hp ha' hb' => ?_)
      cases hl : l[lhs K i]? with
      | none => rw [children_none hK hl hc hp] at ha'; cases ha'
      | some b0 =>
        obtain ⟨a0, ha0, -⟩ := minChild_le key hK hl
        exact (hnone a0 b' ha0 hb').elim

theorem siftUp_ordered {l : List α} {i : ℕ} (o : UpOrder K key l i) :
    Ordered K key (siftUp K (ltOf key) l i) :=
  siftUpLoop_ordered i l i le_rfl o

theorem siftDown_ordered (hK : 0 < K) {l : List α} {i : ℕ} (o : DownOrder K key l i) :
    Ordered K key (siftDown K (ltOf key) l i) :=
  siftDownLoop_ordered hK l.length l i (by omega) o

theorem sift_ordered (hK : 0 < K) {l : List α} {i : ℕ} (o : NearOrder K key l i) :
    Ordered K key (sift K (ltOf key) l i) := by
  unfold sift
  split
  · rename_i h0
    subst h0
    exact siftDown_ordered hK
      ⟨fun j a b hj hpj ha hb => o.except j a b hj (by omega) hpj ha hb,
        fun _ _ _ _ _ h => absurd h (lt_irrefl 0)⟩
  · rename_i h0
    have hi0 : 0 < i := Nat.pos_of_ne_zero h0
    split
    · rename_i a b ha hb
      split
      · rename_i hlt
        refine siftUp_ordered ⟨fun j a' b' hj hji ha' hb' => ?_, o.grand⟩
        by_cases hpj : parent K j = i
        · rw [hpj, ha] at hb'; cases hb'
          exact le_of_lt (lt_of_lt_of_le (by simpa using hlt) (o.grand j a' b hj hpj hi0 ha' hb))
        · exact o.except j a' b' hj hji hpj ha' hb'
      · rename_i hlt
        refine siftDown_ordered hK ⟨fun j a' b' hj hpj ha' hb' => ?_, o.grand⟩
        by_cases hji : j = i
        · subst hji
          rw [ha] at ha'; rw [hb] at hb'; cases ha'; cases hb'
          simpa using hlt
        · exact o.except j a' b' hj hji hpj ha' hb'
    · rename_i hnone
      intro j a b hj ha hb
      by_cases hji : j = i
      · subst hji; exact (hnone a b ha hb).elim
      · by_cases hpj : parent K j = i
        · rw [hpj] at hb
          have hpi := parent_lt K hi0
          have hil := lt_length_of_getElem? hb
          exact (hnone b _ hb (List.getElem?_eq_getElem (by omega))).elim
        · exact o.except j a b hj hji hpj ha hb

/-! ## The top -/

/-- The root of an ordered heap has the least key. -/
theorem Ordered.root_le {l : List α} (ho : Ordered K key l) {r : α} (hr : l[0]? = some r) :
    ∀ (j : ℕ) (a : α), l[j]? = some a → key r ≤ key a := by
  intro j
  induction j using Nat.strong_induction_on with
  | _ j ih =>
    intro a ha
    rcases Nat.eq_zero_or_pos j with rfl | hj
    · rw [hr] at ha; cases ha; exact le_refl _
    · have hpj := parent_lt K hj
      have hpl : parent K j < l.length := lt_trans hpj (lt_length_of_getElem? ha)
      exact le_trans (ih (parent K j) hpj l[parent K j] (List.getElem?_eq_getElem hpl))
        (ho j a _ hj ha (List.getElem?_eq_getElem hpl))

/-- The top of an ordered heap has the least key among its members. -/
theorem Ordered.top_le {l : List α} (ho : Ordered K key l) {r : α} (hr : top l = some r)
    {x : α} (hx : x ∈ l) : key r ≤ key x := by
  obtain ⟨j, hj, rfl⟩ := List.getElem_of_mem hx
  exact ho.root_le (by rw [← List.head?_eq_getElem?]; exact hr) j _ (List.getElem?_eq_getElem hj)

/-- A heap whose members keep their keys stays ordered. -/
theorem Ordered.congr {key' : α → κ} {l : List α} (ho : Ordered K key l)
    (h : ∀ a ∈ l, key' a = key a) : Ordered K key' l := by
  intro j a b hj ha hb
  rw [h a (mem_of_getElem? ha), h b (mem_of_getElem? hb)]
  exact ho j a b hj ha hb

/-! ## What each operation keeps -/

theorem push_ordered {l : List α} (ho : Ordered K key l) (x : α) :
    Ordered K key (push K (ltOf key) l x) := by
  refine siftUp_ordered ⟨fun j a b hj hjn ha hb => ?_, fun c a b hc hp _ ha _ => ?_⟩
  · have hjl := lt_length_of_getElem? ha
    simp only [List.length_append, List.length_singleton] at hjl
    have hpj := parent_lt K hj
    rw [List.getElem?_append_left (by omega)] at ha hb
    exact ho j a b hj ha hb
  · have hpc := parent_lt K hc
    have hcl := lt_length_of_getElem? ha
    simp only [List.length_append, List.length_singleton] at hcl
    omega

theorem removeAt_ordered (hK : 0 < K) {l : List α} (ho : Ordered K key l) (i : ℕ) :
    Ordered K key (removeAt K (ltOf key) l i) := by
  unfold removeAt
  split
  · rename_i hi
    have hn : l.length - 1 < l.length := by omega
    have hget : ∀ k, (swap l i (l.length - 1)).dropLast[k]? =
        if k < l.length - 1 then (if k = i then l[l.length - 1]? else l[k]?) else none := by
      intro k
      rw [List.getElem?_dropLast, length_swap, getElem?_swap hi hn]
      by_cases hk : k < l.length - 1
      · simp only [hk, if_true, show k ≠ l.length - 1 by omega, if_false]
      · simp only [hk, if_false]
    have hin : ∀ {k : ℕ} {a : α}, (if k < l.length - 1 then (if k = i then l[l.length - 1]? else
        l[k]?) else none) = some a → k < l.length - 1 := by
      intro k a h
      by_contra hk
      rw [if_neg hk] at h
      cases h
    refine sift_ordered hK ⟨fun j a b hj hji hpj ha hb => ?_, fun c a b hc hp hi0 ha hb => ?_⟩
    · rw [hget] at ha hb
      have hpj' := parent_lt K hj
      have hjn := hin ha
      rw [if_pos hjn, if_neg hji] at ha
      rw [if_pos (by omega), if_neg hpj] at hb
      exact ho j a b hj ha hb
    · have hpc := parent_lt K hc
      have hpi := parent_lt K hi0
      rw [hget] at ha hb
      have hcn := hin ha
      rw [if_pos hcn, if_neg (by omega)] at ha
      rw [if_pos (by omega), if_neg (by omega)] at hb
      have hx : l[i]? = some l[i] := List.getElem?_eq_getElem hi
      exact le_trans (ho i _ b hi0 hx hb) (ho c a _ hc ha (hp ▸ hx))
  · exact ho

section Ops

variable [DecidableEq α]

theorem deleteFromHeap_ordered (hK : 0 < K) {l : List α} (ho : Ordered K key l) (x : α) :
    Ordered K key (deleteFromHeap K (ltOf key) l x) := by
  unfold deleteFromHeap
  split
  · exact removeAt_ordered hK ho _
  · exact ho

theorem ne_of_ne_indexOf {l : List α} (hnd : l.Nodup) {j : ℕ} {a x : α} (ha : l[j]? = some a)
    (hj : j ≠ l.indexOf x) : a ≠ x := by
  rintro rfl
  obtain ⟨hjl, rfl⟩ := List.getElem?_eq_some_iff.mp ha
  exact hj (List.indexOf_getElem hnd j hjl).symm

section KeyChange

variable {key₀ : α → κ} {l : List α} {x : α}

/-- The children of the slot of `x` are at or after its parent, under a key that changed only at
`x`. -/
theorem grand_of_ordered (ho : Ordered K key₀ l) (hnd : l.Nodup)
    (hag : ∀ a, a ≠ x → key a = key₀ a) :
    ∀ c a b, 0 < c → parent K c = l.indexOf x → 0 < l.indexOf x → l[c]? = some a →
      l[parent K (l.indexOf x)]? = some b → key b ≤ key a := by
  intro c a b hc hp hi0 ha hb
  have hpc := parent_lt K hc
  have hpi := parent_lt K hi0
  have hxl : x ∈ l := List.indexOf_lt_length.mp (by have := lt_length_of_getElem? ha; omega)
  have hx := List.getElem?_indexOf hxl
  rw [hag a (ne_of_ne_indexOf hnd ha (by omega)), hag b (ne_of_ne_indexOf hnd hb (by omega))]
  exact le_trans (ho _ x b hi0 hx hb) (ho c a x hc ha (hp ▸ hx))

/-- `promote` restores the order after the key of `x` did not increase. -/
theorem promote_ordered (ho : Ordered K key₀ l) (hnd : l.Nodup)
    (hag : ∀ a, a ≠ x → key a = key₀ a) (hle : key x ≤ key₀ x) :
    Ordered K key (promote K (ltOf key) l x) := by
  refine siftUp_ordered ⟨fun j a b hj hji ha hb => ?_, grand_of_ordered ho hnd hag⟩
  rw [hag a (ne_of_ne_indexOf hnd ha hji)]
  by_cases hbx : b = x
  · subst hbx; exact le_trans hle (ho j a b hj ha hb)
  · rw [hag b hbx]; exact ho j a b hj ha hb

/-- `demote` restores the order after the key of `x` did not decrease. -/
theorem demote_ordered (hK : 0 < K) (ho : Ordered K key₀ l) (hnd : l.Nodup)
    (hag : ∀ a, a ≠ x → key a = key₀ a) (hle : key₀ x ≤ key x) :
    Ordered K key (demote K (ltOf key) l x) := by
  refine siftDown_ordered hK ⟨fun j a b hj hpj ha hb => ?_, grand_of_ordered ho hnd hag⟩
  rw [hag b (ne_of_ne_indexOf hnd hb hpj)]
  by_cases hax : a = x
  · subst hax; exact le_trans (ho j a b hj ha hb) hle
  · rw [hag a hax]; exact ho j a b hj ha hb

/-- `adjust` restores the order after any change of the key of `x`. -/
theorem adjust_ordered (hK : 0 < K) (ho : Ordered K key₀ l) (hnd : l.Nodup)
    (hag : ∀ a, a ≠ x → key a = key₀ a) : Ordered K key (adjust K (ltOf key) l x) := by
  refine sift_ordered hK ⟨fun j a b hj hji hpj ha hb => ?_, grand_of_ordered ho hnd hag⟩
  rw [hag a (ne_of_ne_indexOf hnd ha hji), hag b (ne_of_ne_indexOf hnd hb hpj)]
  exact ho j a b hj ha hb

/-- `promote` leaves the heap as it is after a key of `x` that did not decrease: `x` does not
precede its parent. -/
theorem promote_eq_self (ho : Ordered K key₀ l) (hnd : l.Nodup)
    (hag : ∀ a, a ≠ x → key a = key₀ a) (hle : key₀ x ≤ key x) :
    promote K (ltOf key) l x = l := by
  unfold promote siftUp
  rcases hi : l.indexOf x with _ | n
  · rfl
  · rw [siftUpLoop, if_neg n.succ_ne_zero]
    split
    · rename_i a b ha hb
      have hxl : x ∈ l := List.indexOf_lt_length.mp (hi ▸ lt_length_of_getElem? ha)
      obtain rfl : a = x := by
        have := List.getElem?_indexOf hxl
        rw [hi, ha] at this
        exact Option.some.inj this
      have hba : b ≠ a := ne_of_ne_indexOf hnd hb (by rw [hi]; exact (parent_lt K n.succ_pos).ne)
      rw [if_neg (by rw [ltOf_eq_true, not_lt, hag b hba]; exact (ho _ a b n.succ_pos ha hb).trans hle)]
    · rfl

/-- `promote` then `demote`, as after `reduce_reservation_tags`, restores the order after any
change of the key of `x`: either the key fell and `promote` restores the order, or it did not and
`promote` changes nothing. -/
theorem demote_promote_ordered (hK : 0 < K) (ho : Ordered K key₀ l) (hnd : l.Nodup)
    (hag : ∀ a, a ≠ x → key a = key₀ a) :
    Ordered K key (demote K (ltOf key) (promote K (ltOf key) l x) x) := by
  rcases le_total (key x) (key₀ x) with hle | hle
  · exact demote_ordered hK (promote_ordered ho hnd hag hle)
      ((promote_perm K _ l x).nodup_iff.mpr hnd) (fun _ _ => rfl) le_rfl
  · rw [promote_eq_self ho hnd hag hle]
    exact demote_ordered hK ho hnd hag hle

end KeyChange

end Ops

end IndIntruHeap

end DmclockServer
