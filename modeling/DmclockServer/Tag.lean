import DmclockServer.Dbl

/-!
# Client information and request tags

`ClientInfo`, `RequestTag` and its `tag_calc` from `dmclock_server.h`, and the request parameters
and phases of `dmclock_recs.h`. A tag's three fields are doubles that may be a sentinel; its
arrival time is finite. The constructor's assertion that the reservation or the proportion tag is
finite is the one way tag arithmetic can fail (`RequestTag.make`).
-/

namespace DmclockServer

/-- `ClientType`: reservation, burst, area and other clients. -/
inductive ClientType where
  | R
  | B
  | A
  | O
  deriving DecidableEq, Repr

/-- `ClientInfo` with the rates and the class; the inverses are computed as its constructor
computes them. The `resource` field is never read by the scheduler and is left out. -/
structure ClientInfo where
  reservation : ℚ
  weight : ℚ
  limit : ℚ
  clientType : ClientType
  deriving DecidableEq, Repr

namespace ClientInfo

/-- `0.0 == r ? 0.0 : 1.0 / r`. -/
def inv (r : ℚ) : ℚ := if r = 0 then 0 else 1 / r

def reservationInv (c : ClientInfo) : ℚ := inv c.reservation

def weightInv (c : ClientInfo) : ℚ := inv c.weight

def limitInv (c : ClientInfo) : ℚ := inv c.limit

theorem inv_nonneg {r : ℚ} (h : 0 ≤ r) : 0 ≤ inv r := by
  unfold inv; split
  · exact le_refl 0
  · exact div_nonneg zero_le_one h

theorem inv_eq_zero {r : ℚ} : inv r = 0 ↔ r = 0 := by
  unfold inv; split
  · simp_all
  · rename_i h; simp [h]

end ClientInfo

/-- `ReqParams` (`dmclock_recs.h`, not among the sources; modelled from the spec §6): the
distance counters sent with a request, both 1 by default. -/
structure ReqParams where
  delta : ℕ := 1
  rho : ℕ := 1
  deriving DecidableEq, Repr

/-- `PhaseType` (`dmclock_recs.h`, modelled from the spec §4.8): why a request was dispatched. -/
inductive PhaseType where
  | reservation
  | priority
  deriving DecidableEq, Repr

/-- `RequestTag`. -/
structure RequestTag where
  reservation : Dbl
  proportion : Dbl
  limit : Dbl
  ready : Bool
  arrival : ℚ
  deriving DecidableEq, Repr

namespace RequestTag

/-- `tag_calc`: a zero increment pins the field to a sentinel; otherwise the previous field
advances by the increment, times the distance when that is not 0, and never falls behind `time`. -/
def tagCalc (time : ℚ) (prev : Dbl) (increment : ℚ) (distReqVal : ℕ) (extremeIsHigh : Bool) :
    Dbl :=
  if increment = 0 then (if extremeIsHigh then .maxTag else .minTag)
  else max (.fin time) (prev + (if distReqVal ≠ 0 then increment * distReqVal else increment))

/-- The fields the tag constructor computes from the previous tag, before its assertion. The
unused `cost` argument is left out. -/
def build (prev : RequestTag) (client : ClientInfo) (delta rho : ℕ) (time anticipationTimeout : ℚ) :
    RequestTag :=
  let maxTime := if time - anticipationTimeout < prev.arrival then time - anticipationTimeout
    else time
  { reservation := tagCalc maxTime prev.reservation client.reservationInv rho true
    proportion := tagCalc maxTime prev.proportion client.weightInv delta true
    limit := tagCalc maxTime prev.limit client.limitInv delta false
    ready := false
    arrival := time }

/-- `assert(reservation < max_tag || proportion < max_tag)`. -/
def check (t : RequestTag) : Except String RequestTag :=
  if t.reservation < .maxTag ∨ t.proportion < .maxTag then .ok t
  else .error "assert(reservation < max_tag || proportion < max_tag)"

/-- `RequestTag(prev_tag, client, delta, rho, time, cost, anticipation_timeout)`. -/
def make (prev : RequestTag) (client : ClientInfo) (delta rho : ℕ) (time anticipationTimeout : ℚ) :
    Except String RequestTag :=
  (build prev client delta rho time anticipationTimeout).check

/-- `RequestTag(0, 0, 0, time)`: the initial previous tag and the placeholder of a deferred tag;
its assertion holds. -/
def zero (arrival : ℚ) : RequestTag := ⟨.fin 0, .fin 0, .fin 0, false, arrival⟩

theorem make_eq_ok {prev : RequestTag} {client : ClientInfo} {delta rho : ℕ}
    {time at' : ℚ} {t : RequestTag} (h : make prev client delta rho time at' = .ok t) :
    t = build prev client delta rho time at' := by
  unfold make check at h
  split at h
  · exact (Except.ok.inj h).symm
  · cases h

/-- A client with neither a reservation nor a weight, such as the all-zero info of a pool that no
longer exists, gets no tag: both fields are pinned to `max_tag` and the assertion fails. -/
theorem make_eq_error_of_rates_zero (prev : RequestTag) {client : ClientInfo}
    (hr : client.reservation = 0) (hw : client.weight = 0) (delta rho : ℕ) (time at' : ℚ) :
    make prev client delta rho time at' =
      .error "assert(reservation < max_tag || proportion < max_tag)" := by
  simp [make, check, build, tagCalc, ClientInfo.reservationInv, ClientInfo.weightInv,
    ClientInfo.inv, hr, hw]

/-- A nonzero increment moves a field forward by at least the increment. -/
theorem le_tagCalc {time increment : ℚ} {prev : Dbl} {dist : ℕ} {high : Bool}
    (hinc : 0 < increment) : prev + increment ≤ tagCalc time prev increment dist high := by
  unfold tagCalc
  rw [if_neg (ne_of_gt hinc)]
  refine le_trans (Dbl.addQ_le_addQ_left prev ?_) (le_max_right _ _)
  split
  · rename_i hd
    have : (1 : ℚ) ≤ dist := by exact_mod_cast Nat.one_le_iff_ne_zero.mpr hd
    nlinarith
  · exact le_refl _

end RequestTag

end DmclockServer
