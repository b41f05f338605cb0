import FixedInt.Error

/-!
Comparing vectors lane by lane, with any decision on a pair of lanes.
-/

namespace FixedInt.LaneVector

/-- Refuses vectors that differ in length or lane width. -/
def requireSameShape (left right : LaneVector) : Except EvalError Unit :=
  if left.length = right.length ∧ left.width = right.width then .ok ()
  else .error (.shapeMismatch left.length left.width right.length right.width)

/-- Decides every pair of lanes of two vectors of one shape. -/
def decideLanes (decide : UInt64 → UInt64 → Bool) (left right : LaneVector) :
    Except EvalError (List Bool) := do
  requireSameShape left right
  return List.zipWith decide left.lanes right.lanes

end FixedInt.LaneVector
