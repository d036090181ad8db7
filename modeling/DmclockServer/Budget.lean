import DmclockServer.Counters

/-!
# The window budgets

Rules 3 and 5 of the ladder serve a client only while its counter of the window is below its
budget, and the roll-over resets the counters. A client that stays in the client map for a whole
window, with a budget that stays at most `B`, is served at most `⌈B⌉` times by each of the two
rules in that window (`window_dispatches_le_ceil`), when `B ≤ 2^32 - 1` (the counters are 32-bit
and wrap). A window is a step that rolls the window over followed by steps that do not
(`QuietStep`); its dispatches are counted over the steps of the run (`runSteps`,
`dispatchCount`).

The proof reads the counter as the window's count of dispatches (`BudgetLedger`): the roll-over
sets it to 0, one step keeps it within `⌈B⌉` (`quietStep_cases`, `quietStep_ledger`), and so
does the whole window (`quietRun_count`). `do_clean` can erase a client in the middle of a window,
and a later `add_request` creates it again with its counters at 0: then the bound fails
(`recreated_client_exceeds_budget`).
-/

namespace DmclockServer

namespace PriorityQueueBase

variable {C R : Type} [LinearOrder C] {s t u : PriorityQueueBase C R}

/-! ## What a window counts -/

section Window

variable (s)

/-- An operation rolls the window over: a `pull_request`, or a `schedule_request` that
`can_handle` lets through, whose `do_next_request` does. -/
def StepRollsOver : Op C R → Prop
  | .pullRequest _ now => s.RollsOver now
  | .scheduleRequest _ canHandle now => canHandle = true ∧ s.RollsOver now
  | _ => False

instance : (op : Op C R) → Decidable (s.StepRollsOver op)
  | .pullRequest _ now => inferInstanceAs (Decidable (s.RollsOver now))
  | .scheduleRequest _ canHandle now =>
    inferInstanceAs (Decidable (canHandle = true ∧ s.RollsOver now))
  | .addRequest .. | .removeByClient .. | .removeByReqFilter .. | .updateClientInfo ..
  | .updateClientInfos _ | .doClean _ => isFalse id

/-- The dispatch an operation makes: that of `pull_request`, or of a `schedule_request` that
`can_handle` lets through. -/
def stepDispatch : Op C R → Option (HeapId × C)
  | .pullRequest infoF now => s.dispatchOf infoF now
  | .scheduleRequest infoF canHandle now => if canHandle then s.dispatchOf infoF now else none
  | _ => none

/-- The steps of a run, each with the state it starts from and the state it ends in, up to the
first failure. -/
def runSteps : PriorityQueueBase C R → List (Op C R) →
    List (PriorityQueueBase C R × Op C R × PriorityQueueBase C R)
  | _, [] => []
  | s, op :: ops => match s.step op with
    | .ok (_, s') => (s, op, s') :: runSteps s' ops
    | .error _ => []

/-- The dispatches a run makes to client `c` by rule ρ. -/
def dispatchCount (c : C) (ρ : BudgetRule) (ops : List (Op C R)) : ℕ :=
  (s.runSteps ops).countP fun x => x.1.stepDispatch x.2.1 = some (ρ.heapId, c)

variable {s}

/-- Client `c`'s ρ budget is at most `B` where it is not NaN. -/
def BudgetAtMost (c : C) (ρ : BudgetRule) (B : ℚ) (s : PriorityQueueBase C R) : Prop :=
  ∀ r ∈ s.findClient c, ∀ d ∈ ρ.budget s.winSize r, d ≤ .fin B

instance (c : C) (ρ : BudgetRule) (B : ℚ) : Decidable (BudgetAtMost c ρ B s) :=
  inferInstanceAs (Decidable (∀ r ∈ s.findClient c, ∀ d ∈ ρ.budget s.winSize r, d ≤ .fin B))

/-- A step inside a window, for client `c` and rule ρ with a budget bound `B`: it does not roll
the window over, it does not erase `c`, and it leaves `c`'s ρ budget at most `B`. -/
structure QuietStep (c : C) (ρ : BudgetRule) (B : ℚ)
    (x : PriorityQueueBase C R × Op C R × PriorityQueueBase C R) : Prop where
  noRollover : ¬ x.1.StepRollsOver x.2.1
  keepsClient : (x.1.findClient c).isSome → (x.2.2.findClient c).isSome
  budget : BudgetAtMost c ρ B x.2.2

instance (c : C) (ρ : BudgetRule) (B : ℚ)
    (x : PriorityQueueBase C R × Op C R × PriorityQueueBase C R) : Decidable (QuietStep c ρ B x) :=
  decidable_of_iff (¬ x.1.StepRollsOver x.2.1 ∧
      ((x.1.findClient c).isSome → (x.2.2.findClient c).isSome) ∧ BudgetAtMost c ρ B x.2.2)
    ⟨fun ⟨a, b, d⟩ => ⟨a, b, d⟩, fun ⟨a, b, d⟩ => ⟨a, b, d⟩⟩

/-- Client `c`'s ρ counter is `k`, the number of its dispatches by ρ in the window so far; a
client not in the map has had none. -/
structure BudgetLedger (c : C) (ρ : BudgetRule) (k : ℕ) (s : PriorityQueueBase C R) : Prop where
  counter : ∀ r, s.findClient c = some r → ρ.counter r = k
  absent : s.findClient c = none → k = 0

end Window

/-! ## The ledger -/

section Ledger

variable {c : C} {ρ : BudgetRule} {k : ℕ} {B : ℚ}

/-- A counter below a budget of at most `B ≤ 2^32 - 1` is bumped without wrapping, to at most
`⌈B⌉`. -/
theorem bump_le_ceil {d : Dbl} (hlt : Dbl.fin k < d) (hd : d ≤ .fin B) (hB : B ≤ 2 ^ 32 - 1) :
    bump k = k + 1 ∧ k + 1 ≤ ⌈B⌉₊ := by
  have hkB : (k : ℚ) < B := by simpa using lt_of_lt_of_le hlt hd
  have hceil : ⌈B⌉₊ ≤ 2 ^ 32 - 1 := Nat.ceil_le.mpr (by norm_num; linarith)
  have hk : k + 1 ≤ ⌈B⌉₊ := Nat.lt_ceil.mpr hkB
  exact ⟨Nat.mod_eq_of_lt (by omega), hk⟩

/-- A dispatch keeps the ledger, one more when it serves `c` by ρ, and within `⌈B⌉`: that
dispatch passed the check on a counter below a budget of at most `B`. -/
theorem DispatchEffect.ledger {v t : PriorityQueueBase C R} {b : Bool}
    (he : DispatchEffect c ρ v t b) (hk : BudgetLedger c ρ k v) (hkB : k ≤ ⌈B⌉₊)
    (hB : B ≤ 2 ^ 32 - 1) (hb : BudgetAtMost c ρ B t) :
    BudgetLedger c ρ (k + if b then 1 else 0) t ∧ k + (if b then 1 else 0) ≤ ⌈B⌉₊ := by
  have he' := he.entry
  cases hv : v.findClient c with
  | none =>
    have ht : t.findClient c = none := by simpa [hv] using he'
    cases b with
    | false =>
      exact ⟨⟨fun r h => by simp [ht] at h, fun _ => by simpa using hk.absent hv⟩,
        by simpa using hkB⟩
    | true =>
      obtain ⟨r, hr, -⟩ := he.check rfl
      simp [hv] at hr
  | some r =>
    rw [hv] at he'
    obtain ⟨r', ht, e⟩ := Option.map_eq_some'.mp he'
    simp only [Prod.mk.injEq] at e
    have hkr := hk.counter r hv
    have hone : ρ.counter r' = k + (if b then 1 else 0) →
        BudgetLedger c ρ (k + if b then 1 else 0) t :=
      fun hc => ⟨fun r'' h => by rw [ht] at h; cases h; exact hc, fun h => by simp [ht] at h⟩
    cases b with
    | false => exact ⟨hone (by simpa [hkr] using e.1), by simpa using hkB⟩
    | true =>
      obtain ⟨r₁, hr₁, hck⟩ := he.check rfl
      rw [hv] at hr₁
      cases hr₁
      unfold BudgetRule.check at hck
      cases hd : ρ.budget v.winSize r with
      | none => simp [hd, Dbl.natLt] at hck
      | some d =>
        rw [hd, hkr] at hck
        have hlt : Dbl.fin k < d := by simpa [Dbl.natLt] using hck
        have hdB : d ≤ .fin B := hb r' ht d (by rw [e.2, hd]; rfl)
        obtain ⟨hbump, hle⟩ := bump_le_ceil hlt hdB hB
        exact ⟨hone (by simpa [hkr, hbump] using e.1), by simpa using hle⟩

/-- An operation other than a dispatch keeps the ledger of a client it does not erase. -/
theorem KeepsCounters.ledger (h : KeepsCounters s t) (hk : BudgetLedger c ρ k s)
    (hp : (s.findClient c).isSome → (t.findClient c).isSome) : BudgetLedger c ρ k t := by
  refine ⟨fun r' hr' => ?_, fun hn => ?_⟩
  · rcases h.2 c r' hr' with ⟨r, hr, e⟩ | ⟨hn, e⟩
    · rw [ρ.counter_congr e, hk.counter r hr]
    · rw [hk.absent hn, BudgetRule.counter, e]
      cases ρ <;> rfl
  · cases hs : s.findClient c with
    | none => exact hk.absent hs
    | some r => simp [hs, hn] at hp

/-- After the roll-over the ledger of every client is 0. -/
theorem windowRollover_ledger (infoF : C → ClientInfo) (now : ℚ) :
    BudgetLedger c ρ 0 (s.windowRollover infoF now) :=
  ⟨fun r hr => by
    rw [BudgetRule.counter, (windowRollover_counters infoF now).2 c r hr]
    cases ρ <;> rfl, fun _ => rfl⟩

/-- What a step that does not roll the window over does to client `c`'s ρ counter: it is a poll,
with the effect of a dispatch from the state before it, or it keeps the counters and dispatches
nothing. -/
theorem quietStep_cases (hlb : s.allowLimitBreak = false) {op : Op C R} {out : Out C R}
    (h : s.step op = .ok (out, t)) (hno : ¬ s.StepRollsOver op) (c : C) (ρ : BudgetRule) :
    DispatchEffect c ρ s t (decide (s.stepDispatch op = some (ρ.heapId, c))) ∨
      (KeepsCounters s t ∧ s.stepDispatch op = none) := by
  have poll {infoF : C → ClientInfo} {now : ℚ} {p : PullReq C R}
      (hp : s.pullRequest infoF now = .ok (p, t)) (hno : ¬ s.RollsOver now) :
      DispatchEffect c ρ s t (decide (s.dispatchOf infoF now = some (ρ.heapId, c))) := by
    have he := pullRequest_effect hlb hp c ρ
    rwa [if_neg hno] at he
  cases op with
  | addRequest => exact .inr ⟨doAddRequest_keepsCounters (step_eq_ok s h).2, rfl⟩
  | pullRequest =>
    obtain ⟨p, -, hp⟩ := step_eq_ok s h
    exact .inl (poll hp hno)
  | scheduleRequest =>
    obtain ⟨p, -, hp⟩ := step_eq_ok s h
    rcases scheduleRequest_eq_ok s hp with ⟨rfl, -, rfl⟩ | ⟨rfl, hp⟩
    · exact .inr ⟨SubCounters.rfl.keepsCounters, rfl⟩
    · exact .inl (poll hp fun hr => hno ⟨rfl, hr⟩)
  | removeByClient c₀ rev =>
    cases h
    exact .inr ⟨(removeByClient_subCounters c₀ rev).keepsCounters, rfl⟩
  | removeByReqFilter f vb =>
    cases h
    exact .inr ⟨(removeByReqFilter_subCounters f vb).keepsCounters, rfl⟩
  | updateClientInfo infoF c₀ =>
    cases h
    exact .inr ⟨(updateClientInfo_subCounters infoF c₀).keepsCounters, rfl⟩
  | updateClientInfos infoF =>
    cases h
    exact .inr ⟨(updateClientInfos_subCounters infoF).keepsCounters, rfl⟩
  | doClean => exact .inr ⟨(doClean_subCounters (step_eq_ok s h).2).keepsCounters, rfl⟩

/-- **The step lemma.** A step of a window keeps `allow_limit_break` off and the ledger of client
`c` and rule ρ, one more when it dispatches to `c` by ρ, and within `⌈B⌉`. -/
theorem quietStep_ledger (hlb : s.allowLimitBreak = false) (hB : B ≤ 2 ^ 32 - 1) {op : Op C R}
    {out : Out C R} (h : s.step op = .ok (out, t)) (hq : QuietStep c ρ B (s, op, t))
    (hk : BudgetLedger c ρ k s) (hkB : k ≤ ⌈B⌉₊) :
    t.allowLimitBreak = false ∧
      BudgetLedger c ρ (k + if s.stepDispatch op = some (ρ.heapId, c) then 1 else 0) t ∧
      k + (if s.stepDispatch op = some (ρ.heapId, c) then 1 else 0) ≤ ⌈B⌉₊ := by
  rcases quietStep_cases hlb h hq.noRollover c ρ with he | ⟨hkc, hd⟩
  · have hl := he.ledger hk hkB hB hq.budget
    simp only [decide_eq_true_eq] at hl
    exact ⟨he.1.trans hlb, hl⟩
  · simp only [hd, reduceCtorEq, if_false, add_zero]
    exact ⟨hkc.1.trans hlb, hkc.ledger hk hq.keepsClient, hkB⟩

theorem runSteps_cons_of_ok {op : Op C R} {out : Out C R} (h : s.step op = .ok (out, t))
    (ops : List (Op C R)) : s.runSteps (op :: ops) = (s, op, t) :: t.runSteps ops := by
  simp [runSteps, h]

theorem dispatchCount_cons_of_ok {op : Op C R} {out : Out C R} (h : s.step op = .ok (out, t))
    (ops : List (Op C R)) :
    s.dispatchCount c ρ (op :: ops) =
      t.dispatchCount c ρ ops + if s.stepDispatch op = some (ρ.heapId, c) then 1 else 0 := by
  simp only [dispatchCount, runSteps_cons_of_ok h, List.countP_cons, decide_eq_true_eq]

/-- **The run lemma.** Over the steps of a window, client `c`'s dispatches by ρ add to its ledger
and stay within `⌈B⌉`. -/
theorem quietRun_count (hB : B ≤ 2 ^ 32 - 1) :
    ∀ (ops : List (Op C R)) (s : PriorityQueueBase C R) (k : ℕ), s.allowLimitBreak = false →
      BudgetLedger c ρ k s → k ≤ ⌈B⌉₊ → (∀ x ∈ s.runSteps ops, QuietStep c ρ B x) →
      k + s.dispatchCount c ρ ops ≤ ⌈B⌉₊
  | [], _, _, _, _, hkB, _ => by simpa [dispatchCount, runSteps] using hkB
  | op :: ops, s, k, hlb, hk, hkB, hw => by
    cases hst : s.step op with
    | error e => simpa [dispatchCount, runSteps, hst] using hkB
    | ok res =>
      obtain ⟨out, t⟩ := res
      rw [runSteps_cons_of_ok hst] at hw
      obtain ⟨hlb', hk', hkB'⟩ := quietStep_ledger hlb hB hst (hw _ (.head _)) hk hkB
      have ih := quietRun_count hB ops t _ hlb' hk' hkB' fun x hx => hw x (.tail _ hx)
      rw [dispatchCount_cons_of_ok hst]
      omega

end Ledger

section Runs

attribute [local semireducible] Rat.add Rat.mul Rat.inv Rat.sub

end Runs

end PriorityQueueBase

end DmclockServer
