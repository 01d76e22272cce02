/-
Formula/CommandLine/Sweep.lean

Evenly spaced values from a start up to and including a stop.  The number of
values is found by division, with half a step of slack at the stop; the values
come from the start by multiples of the step that the first two of them have
after rounding, so errors do not add up.
-/
import Formula.Error

namespace Formula.CommandLine

/-- Why there are no values. -/
inductive SweepError
  | stepNotPositive
  | noLength
  | tooLong

def SweepError.message : SweepError → String
  | stepNotPositive => "sweep STEP must be positive"
  | noLength => "arange: cannot compute length"
  | tooLong => "Maximum allowed size exceeded"

/-- The value at a place of a sweep. -/
def sweepValue (start step : Float) (i : Nat) : Float :=
  let second := start + step
  if i = 0 then start
  else if i = 1 then second
  else start + i.toFloat * (second - start)

/-- The values of a sweep. -/
def sweepValues (start stop step : Float) : Except SweepError (List Float) :=
  if step ≤ 0.0 then .error .stepNotPositive
  else
    let length := ((stop + step / 2.0 - start) / step).ceil
    if length.isNaN then .error .noLength
    else if length.abs ≥ 9223372036854775808.0 then .error .tooLong
    else
      let count := if length > 0.0 then length.toUInt64.toNat else 0
      .ok ((List.range count).map (sweepValue start step))

end Formula.CommandLine
