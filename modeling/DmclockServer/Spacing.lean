import DmclockServer.Frame

/-!
# The spacing of a client's tags

With deferred tags (the default build) a request gets its tag when it becomes the head of its
client's queue: `pop_process_request` computes it from the tag of the request it pops
(`tagNewHead`), so each field with a positive rate advances by at least its increment
(`tagNewHead_spacing`). `remove_by_req_filter` can remove the head without computing the tag of
the request that becomes the head, and that request is then dispatched with its placeholder tag
(`filter_dispatches_placeholder_tag`).

A client whose callback answers with the all-zero info of a pool that no longer exists gets that
info at the next roll-over; no tag can be built from it (`make_eq_error_of_rates_zero`), so the
first pop of such a client with a second request queued fails the tag constructor's assertion
(`poolNoExist_pop_fails_assertion`).
-/

namespace DmclockServer

theorem ClientInfo.inv_pos {r : ℚ} (h : 0 < r) : 0 < inv r := by
  unfold inv
  rw [if_neg (ne_of_gt h)]
  exact one_div_pos.mpr h

namespace RequestTag

/-- Each field of a constructed tag with a positive rate is at least the previous tag's field plus
the increment. -/
theorem build_spacing (prev : RequestTag) (info : ClientInfo) (delta rho : ℕ) (time at' : ℚ) :
    (0 < info.weight →
      prev.proportion + info.weightInv ≤ (build prev info delta rho time at').proportion) ∧
    (0 < info.limit → prev.limit + info.limitInv ≤ (build prev info delta rho time at').limit) ∧
    (0 < info.reservation →
      prev.reservation + info.reservationInv ≤ (build prev info delta rho time at').reservation) :=
  ⟨fun h => le_tagCalc (ClientInfo.inv_pos h), fun h => le_tagCalc (ClientInfo.inv_pos h),
    fun h => le_tagCalc (ClientInfo.inv_pos h)⟩

end RequestTag

theorem ClientRec.head?_setHeadTag {C R : Type} {c : ClientRec C R} {q : ClientReq C R}
    (hq : c.nextRequest = some q) (t : RequestTag) : (c.setHeadTag t).head? = some t := by
  unfold nextRequest at hq
  unfold head? nextRequest setHeadTag
  cases hr : c.requests with
  | nil => simp [hr] at hq
  | cons a l => simp

namespace PriorityQueueBase

variable {C R : Type} [LinearOrder C] (s : PriorityQueueBase C R)

/-- The pop path gives the new head the tag constructed from the popped tag, with the info
`client_info_wrapper` gives: each field with a positive rate advances by at least its
increment. -/
theorem tagNewHead_spacing {top top' : ClientRec C R} {tag t' : RequestTag}
    (h : s.tagNewHead top tag = .ok top') (ht' : top'.head? = some t') :
    ∃ info, s.clientInfoWrapper top = .ok info ∧
      (0 < info.weight → tag.proportion + info.weightInv ≤ t'.proportion) ∧
      (0 < info.limit → tag.limit + info.limitInv ≤ t'.limit) ∧
      (0 < info.reservation → tag.reservation + info.reservationInv ≤ t'.reservation) := by
  unfold tagNewHead at h
  split at h
  · rename_i hn
    cases h
    simp [ClientRec.head?, hn] at ht'
  · rename_i nf hnf
    obtain ⟨info, hinfo, h⟩ := except_bind_eq_ok.mp h
    obtain ⟨t, ht, h⟩ := except_bind_eq_ok.mp h
    cases h
    have hhead : t' = t := by
      rw [← Option.some.injEq, ← ht', ← ClientRec.head?_setHeadTag hnf t]
      rfl
    subst hhead
    rw [RequestTag.make_eq_ok ht]
    exact ⟨info, hinfo, RequestTag.build_spacing _ _ _ _ _ _⟩

attribute [local semireducible] Rat.add Rat.mul Rat.inv Rat.sub

/-- A filter removes request 101, the head of client 1 after request 100 is dispatched. Request
102 becomes the head with the placeholder tag it was queued with, and is dispatched with it: its
proportion tag is behind the one request 100 was dispatched with. -/
theorem filter_dispatches_placeholder_tag :
    ∃ (s₀ s₁ s₂ : PriorityQueueBase ℕ ℕ) (outs : List (Out ℕ ℕ)) (T₁ T₂ : RequestTag),
      init 2 600 900 360 false 0 10 1 = .ok s₀ ∧
      s₀.run [.addRequest (fun _ => ⟨0, 1, 0, .B⟩) 100 1 {} 0,
        .addRequest (fun _ => ⟨0, 1, 0, .B⟩) 101 1 {} 0,
        .addRequest (fun _ => ⟨0, 1, 0, .B⟩) 102 1 {} 0] = .ok (outs, s₁) ∧
      (s₁.findClient 1).bind (·.head?) = some T₁ ∧
      s₁.run [.pullRequest (fun _ => ⟨0, 1, 0, .B⟩) 0,
        .removeByReqFilter (fun _ r => r = 101) false] =
        .ok ([.pulled (.returning 1 100 .priority), .filtered true [(1, 101)]], s₂) ∧
      (s₂.findClient 1).bind (·.head?) = some T₂ ∧
      (s₂.run [.pullRequest (fun _ => ⟨0, 1, 0, .B⟩) 0]).map (·.1) =
        .ok [.pulled (.returning 1 102 .priority)] ∧
      T₂.proportion < T₁.proportion + (⟨0, 1, 0, .B⟩ : ClientInfo).weightInv :=
  ⟨_, _, _, _, _, _, rfl, rfl, rfl, rfl, rfl, by decide, by decide⟩

/-- Client 1 queues two requests as a B client of weight 1. At the roll-over at 1 its callback
answers with the all-zero info of a pool that no longer exists, which the roll-over installs. The
best-effort rule still picks the client, and the pop of request 100 builds the tag of request 101
from the all-zero info and fails the tag constructor's assertion. -/
theorem poolNoExist_pop_fails_assertion :
    ∃ (s₀ s₁ s₂ : PriorityQueueBase ℕ ℕ) (outs : List (Out ℕ ℕ)),
      init 2 600 900 360 false 0 10 1 = .ok s₀ ∧
      s₀.run [.addRequest (fun _ => ⟨0, 1, 0, .B⟩) 100 1 {} 0,
        .addRequest (fun _ => ⟨0, 1, 0, .B⟩) 101 1 {} 0] = .ok (outs, s₁) ∧
      s₁.doNextRequest (fun _ => ⟨0, 0, 0, .O⟩) 1 = .ok (.returning .bestEffort, s₂) ∧
      (s₂.findClient 1).map (fun r => (r.info, r.requests.length)) = some (⟨0, 0, 0, .O⟩, 2) ∧
      s₁.run [.pullRequest (fun _ => ⟨0, 0, 0, .O⟩) 1] =
        .error "assert(reservation < max_tag || proportion < max_tag)" :=
  ⟨_, _, _, _, rfl, rfl, rfl, rfl, rfl⟩

end PriorityQueueBase

end DmclockServer
