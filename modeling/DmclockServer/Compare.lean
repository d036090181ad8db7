import DmclockServer.Client
import DmclockServer.HeapOrder
import Mathlib.Data.Prod.Lex

/-!
# The client comparators

`ClientCompare<tag_field, ready_opt, use_prop_delta>` decides whether one client precedes another
in a heap: clients with a request come first; among those, the ready flag orders them first when
the heap says so (`raises` puts ready heads first, `lowers` puts them last), then the chosen tag
field, plus `prop_delta` for the proportion heaps.

`compareKey` is that order as a key in a linear order, and `clientCompare_eq_ltOf` shows the
comparator is `ltOf compareKey`, so the heap lemmas of `HeapOrder` apply to every heap.
-/

namespace DmclockServer

/-- `ReadyOption`. -/
inductive ReadyOption where
  | ignore
  | lowers
  | raises
  deriving DecidableEq, Repr

/-- The tag field a heap is keyed on (the `tag_field` template argument). -/
inductive TagField where
  | reservation
  | proportion
  | limit
  deriving DecidableEq, Repr

/-- `t.*tag_field`. -/
def RequestTag.field (t : RequestTag) : TagField → Dbl
  | .reservation => t.reservation
  | .proportion => t.proportion
  | .limit => t.limit

variable {C R : Type}

/-- The compared value of a head: the tag field, plus `prop_delta` when the heap says so. -/
def compareValue (tagField : TagField) (usePropDelta : Bool) (n : ClientRec C R)
    (t : RequestTag) : Dbl :=
  if usePropDelta then t.field tagField + n.propDelta else t.field tagField

/-- `ClientCompare<tag_field, ready_opt, use_prop_delta>()(n1, n2)`: does `n1` precede `n2`? -/
def clientCompare (tagField : TagField) (readyOpt : ReadyOption) (usePropDelta : Bool)
    (n1 n2 : ClientRec C R) : Bool :=
  match n1.nextRequest, n2.nextRequest with
  | some r1, some r2 =>
    if readyOpt = .ignore ∨ r1.tag.ready = r2.tag.ready then
      decide (compareValue tagField usePropDelta n1 r1.tag <
        compareValue tagField usePropDelta n2 r2.tag)
    else if readyOpt = .raises then r1.tag.ready else r2.tag.ready
  | some _, none => true
  | none, _ => false

/-- Where the ready flag puts a head: `raises` ranks ready heads first, `lowers` last. -/
def readyRank (readyOpt : ReadyOption) (ready : Bool) : ℕ :=
  match readyOpt, ready with
  | .ignore, _ => 0
  | .raises, b => if b then 0 else 1
  | .lowers, b => if b then 1 else 0

/-- The key that `ClientCompare` orders by: no request sorts last. -/
def compareKey (tagField : TagField) (readyOpt : ReadyOption) (usePropDelta : Bool)
    (n : ClientRec C R) : WithTop (ℕ ×ₗ Dbl) :=
  match n.nextRequest with
  | none => ⊤
  | some r => ((toLex (readyRank readyOpt r.tag.ready,
      compareValue tagField usePropDelta n r.tag) : ℕ ×ₗ Dbl) : WithTop (ℕ ×ₗ Dbl))

theorem clientCompare_eq_ltOf (tagField : TagField) (readyOpt : ReadyOption)
    (usePropDelta : Bool) :
    clientCompare (C := C) (R := R) tagField readyOpt usePropDelta =
      IndIntruHeap.ltOf (compareKey tagField readyOpt usePropDelta) := by
  funext n1 n2
  unfold clientCompare IndIntruHeap.ltOf compareKey
  cases n1.nextRequest with
  | none => cases n2.nextRequest <;> simp
  | some r1 =>
    cases n2.nextRequest with
    | none => simp
    | some r2 =>
      simp only [WithTop.coe_lt_coe, Prod.Lex.lt_iff]
      cases readyOpt <;> cases h1 : r1.tag.ready <;> cases h2 : r2.tag.ready <;> simp [readyRank]

end DmclockServer
