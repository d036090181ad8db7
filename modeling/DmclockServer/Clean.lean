import DmclockServer.NextRequest

/-!
# The janitor

`do_clean`, run every `check_time` by the cleaning job: it appends a mark point `(now, tick)`,
pops the mark points at least `erase_age` old (the newest gives `erase_point`), reads `idle_point`
from the remaining points at least `idle_age` old, then erases every client last used at or before
`erase_point` and marks idle every other client last used at or before `idle_point`.

The mark points hold the steady clock in seconds; the ages are the constructor's durations in
milliseconds.
-/

namespace DmclockServer

namespace PriorityQueueBase

variable {C R : Type} [LinearOrder C] (s : PriorityQueueBase C R)

/-- The erase loop over the mark points: pop every front at or before `cutoff`, remembering its
tick; `front()` of the emptied deque is undefined and ends the run with an error. -/
def erasePointLoop (cutoff : ℚ) : ℕ → List (ℚ × ℕ) → ℕ → Except String (List (ℚ × ℕ) × ℕ)
  | 0, pts, erasePoint => .ok (pts, erasePoint)
  | fuel + 1, pts, erasePoint =>
    match pts with
    | [] => .error "clean_mark_points.front() on an empty deque"
    | p :: rest => if p.1 ≤ cutoff then erasePointLoop cutoff fuel rest p.2 else .ok (pts, erasePoint)

/-- The idle loop over the mark points: the tick of the last point of the leading run at or
before `cutoff`. -/
def idlePointLoop (cutoff : ℚ) : List (ℚ × ℕ) → ℕ → ℕ
  | [], idlePoint => idlePoint
  | p :: rest, idlePoint => if p.1 ≤ cutoff then idlePointLoop cutoff rest p.2 else idlePoint

/-- `client_map.erase(c)`. -/
def eraseClient (c : C) : PriorityQueueBase C R :=
  { s with clientMap := s.clientMap.filter (·.client ≠ c) }

/-- The body of the client loop of `do_clean`. -/
def cleanClient (erasePoint idlePoint : ℕ) (c : C) : PriorityQueueBase C R :=
  match s.findClient c with
  | none => s
  | some r =>
    if erasePoint ≠ 0 ∧ r.lastTick ≤ erasePoint then
      let s := (s.deleteFromHeaps r).eraseClient c
      if r.info.weight = 0 then s
      else if r.info.clientType ≠ .O then s.addTotalWgtAndUpdateClientRes (0 - r.info.weight)
      else s
    else if idlePoint ≠ 0 ∧ r.lastTick ≤ idlePoint then
      s.modifyClient c (fun r => { r with idle := true })
    else s

/-- `do_clean()` at steady-clock time `now` (seconds). -/
def doClean (now : ℚ) : Except String (PriorityQueueBase C R) := do
  let pts := s.cleanMarkPoints ++ [(now, s.tick)]
  let (pts, erasePoint) ← erasePointLoop (now - s.eraseAge / 1000) (pts.length + 1) pts 0
  let idlePoint := idlePointLoop (now - s.idleAge / 1000) pts 0
  let s := { s with cleanMarkPoints := pts }
  pure (if erasePoint > 0 ∨ idlePoint > 0 then
    (s.clientMap.map (·.client)).foldl (fun s c => s.cleanClient erasePoint idlePoint c) s
  else s)

end PriorityQueueBase

end DmclockServer
