import Constituency.Score.Basic

/-!
Scores as double-precision numbers.
-/

namespace Constituency

/-- The logarithm of `1 + x`, accurate for small `x`: the rounding of `1 + x` is made up for by
scaling with `x / ((1 + x) - 1)`. -/
def logOnePlus (x : Float) : Float :=
  let y := 1.0 + x
  if y == 1.0 then x
  else if y == 1.0 / 0.0 then y
  else y.log * x / (y - 1.0)

instance : LogScore Float where
  ofNat := Float.ofNat
  absent := -1.0 / 0.0
  unlimited := 1.0 / 0.0
  fraction k := Float.ofNat k / 9007199254740992.0
  decideLt := inferInstance
  decideLe := inferInstance
  exp := Float.exp
  log := Float.log
  log1p := logOnePlus

end Constituency
