import Grocr.Support.Swift
/-!
# The bar chart when it gets its data

Setting `chartView.data` takes the extrema of the entries and lays out the
three axes of the chart at once.  The layout converts logarithms and quotients
to `Int`, and a conversion traps where the number is not finite.  Sizes and
colours are not part of this, nor is the drawing, which lays out the axes once
more from the same extrema.
-/

namespace Grocr

open Support.Swift

/-- `BarChartDataEntry(x: Double(x), y: y)` -/
structure ChartEntry (Double : Type) where
  x : Nat
  y : Double
deriving DecidableEq

namespace Charts

/-- `Double`, with the operations of Swift and of the C library that Charts
uses. -/
class FloatingPoint (Double : Type) extends Add Double, Sub Double, Mul Double,
    Div Double, Neg Double where
  ofInt : Int → Double
  greatestFiniteMagnitude : Double
  lt : Double → Double → Bool
  le : Double → Double → Bool
  eq : Double → Double → Bool
  isNaN : Double → Bool
  isInfinite : Double → Bool
  abs : Double → Double
  ceil : Double → Double
  floor : Double → Double
  rounded : Double → Double
  nextUp : Double → Double
  log10 : Double → Double
  pow : Double → Double → Double
  /-- `Int(_:)`, where it does not trap. -/
  int : Double → Option Int
  /-- The number of values in `stride(from:through:by:)`. -/
  strideCount : Double → Double → Double → Nat

section

variable {Double : Type} [FloatingPoint Double]

open FloatingPoint

def toInt (x : Double) : Except Trap Int :=
  match int x with
  | some n => .ok n
  | none => .error .notRepresentable

/-! ## Numbers -/

def roundedToNextSignficant (x : Double) : Except Trap Double :=
  if isInfinite x || isNaN x || eq x (ofInt 0) then pure x
  else do
    let d := ceil (log10 (if lt x (ofInt 0) then -x else x))
    let d ← toInt d
    let pw := 1 - d
    let magnitude := pow (ofInt 10) (ofInt pw)
    let shifted := rounded (x * magnitude)
    pure (shifted / magnitude)

def decimalPlaces (x : Double) : Except Trap Int :=
  if isNaN x || isInfinite x || eq x (ofInt 0) then pure 0
  else do
    let i ← roundedToNextSignficant x
    if isInfinite i || isNaN i then pure 0
    else do
      let places ← toInt (ceil (-log10 i))
      pure (places + 2)

/-! ## The data -/

structure BarChartDataSet (Double : Type) where
  entries : List (ChartEntry Double)
  yMax : Double
  yMin : Double
  xMax : Double
  xMin : Double

namespace BarChartDataSet

def calcMinMax (set : BarChartDataSet Double) (e : ChartEntry Double) :
    BarChartDataSet Double :=
  if isNaN e.y then set
  else
    let x := ofInt e.x
    { set with
      yMin := if lt e.y set.yMin then e.y else set.yMin
      yMax := if lt set.yMax e.y then e.y else set.yMax
      xMin := if lt x set.xMin then x else set.xMin
      xMax := if lt set.xMax x then x else set.xMax }

def initEntries (entries : List (ChartEntry Double)) : BarChartDataSet Double :=
  entries.foldl calcMinMax
    ⟨entries, -greatestFiniteMagnitude, greatestFiniteMagnitude,
      -greatestFiniteMagnitude, greatestFiniteMagnitude⟩

end BarChartDataSet

structure BarChartData (Double : Type) where
  dataSet : BarChartDataSet Double
  yMax : Double
  yMin : Double
  xMax : Double
  xMin : Double
  leftAxisMax : Double
  leftAxisMin : Double
  rightAxisMax : Double
  rightAxisMin : Double

namespace BarChartData

/-- `BarChartData(dataSet:)`; the data set belongs to the left axis. -/
def initDataSet (d : BarChartDataSet Double) : BarChartData Double where
  dataSet := d
  yMax := if lt (-greatestFiniteMagnitude) d.yMax then d.yMax
    else -greatestFiniteMagnitude
  yMin := if lt d.yMin greatestFiniteMagnitude then d.yMin
    else greatestFiniteMagnitude
  xMax := if lt (-greatestFiniteMagnitude) d.xMax then d.xMax
    else -greatestFiniteMagnitude
  xMin := if lt d.xMin greatestFiniteMagnitude then d.xMin
    else greatestFiniteMagnitude
  leftAxisMax := d.yMax
  leftAxisMin := d.yMin
  rightAxisMax := -greatestFiniteMagnitude
  rightAxisMin := greatestFiniteMagnitude

def leftRange (data : BarChartData Double) : Double × Double :=
  (if eq data.leftAxisMin greatestFiniteMagnitude then data.rightAxisMin
    else data.leftAxisMin,
    if eq data.leftAxisMax (-greatestFiniteMagnitude) then data.rightAxisMax
    else data.leftAxisMax)

def rightRange (data : BarChartData Double) : Double × Double :=
  (if eq data.rightAxisMin greatestFiniteMagnitude then data.leftAxisMin
    else data.rightAxisMin,
    if eq data.rightAxisMax (-greatestFiniteMagnitude) then data.leftAxisMax
    else data.rightAxisMax)

end BarChartData

/-! ## The axes -/

structure AxisBase (Double : Type) where
  labelCount : Nat
  granularityEnabled : Bool
  granularity : Double
  centerAxisLabelsEnabled : Bool
  forceLabelsEnabled : Bool
  /-- `spaceMin` and `spaceMax` of an x axis, `spaceBottom` and `spaceTop` of
  a y axis. -/
  spaceMin : Double
  spaceMax : Double
  axisMinimum : Double
  axisMaximum : Double
  axisRange : Double
  entries : List Double
  centeredEntries : List Double
  decimals : Int

namespace AxisBase

/-- An axis on which only the space at its ends has been set. -/
def initSpace (space : Double) : AxisBase Double where
  labelCount := 6
  granularityEnabled := false
  granularity := ofInt 1
  centerAxisLabelsEnabled := false
  forceLabelsEnabled := false
  spaceMin := space
  spaceMax := space
  axisMinimum := ofInt 0
  axisMaximum := ofInt 0
  axisRange := ofInt 0
  entries := []
  centeredEntries := []
  decimals := 0

/-- The setter of `labelCount`; the count stays between 2 and 25. -/
def setLabelCount (axis : AxisBase Double) (newValue : Nat) :
    AxisBase Double :=
  { axis with
    labelCount := if 25 < newValue then 25 else if newValue < 2 then 2
      else newValue
    forceLabelsEnabled := false }

/-- `calculate(min:max:)` of an x axis. -/
def calculateX (axis : AxisBase Double) (dataMin dataMax : Double) :
    AxisBase Double :=
  let min := dataMin - axis.spaceMin
  let max := dataMax + axis.spaceMax
  let equal := eq (abs (max - min)) (ofInt 0)
  let max := if equal then max + ofInt 1 else max
  let min := if equal then min - ofInt 1 else min
  { axis with
    axisMinimum := min, axisMaximum := max, axisRange := abs (max - min) }

/-- `calculate(min:max:)` of a y axis; the space is a part of the range. -/
def calculateY (axis : AxisBase Double) (dataMin dataMax : Double) :
    AxisBase Double :=
  let range := abs (dataMax - dataMin)
  let equal := eq range (ofInt 0)
  let max := if equal then dataMax + ofInt 1 else dataMax
  let min := if equal then dataMin - ofInt 1 else dataMin
  let axisMinimum := min - range * axis.spaceMin
  let axisMaximum := max + range * axis.spaceMax
  { axis with
    axisMinimum, axisMaximum, axisRange := abs (axisMaximum - axisMinimum) }

/-- The distance of the labels, once it is known not to be too fine: one order
of magnitude higher instead of more than five times a power of ten. -/
def normalizedInterval (interval : Double) : Except Trap Double := do
  let exponent ← toInt (log10 interval)
  let intervalMagnitude ← roundedToNextSignficant
    (pow (ofInt 10) (ofInt exponent))
  let intervalSigDigit ← toInt (interval / intervalMagnitude)
  if 5 < intervalSigDigit then
    let higher := floor (ofInt 10 * intervalMagnitude)
    pure (if eq higher (ofInt 0) then interval else higher)
  else pure interval

/-- `n` labels from `f` on; a negative zero becomes zero. -/
def entriesFrom (interval : Double) : Nat → Double → List Double
  | 0, _ => []
  | n + 1, f =>
      let f := if eq f (ofInt 0) then ofInt 0 else f
      f :: entriesFrom interval n (f + interval)

/-- The labels between the two ends when their count is not forced. -/
def entriesBetween (axis : AxisBase Double) (yMin yMax interval : Double) :
    List Double :=
  let zero : Double := ofInt 0
  let first := if eq interval zero then zero
    else ceil (yMin / interval) * interval
  let first := if axis.centerAxisLabelsEnabled then first - interval else first
  let last := if eq interval zero then zero
    else nextUp (floor (yMax / interval) * interval)
  let n := if axis.centerAxisLabelsEnabled then 1 else 0
  let n :=
    if !eq interval zero && !eq last first then
      n + strideCount first last interval
    else if eq last first && n = 0 then 1
    else n
  entriesFrom interval n first

def forcedEntries (interval : Double) : Nat → Double → List Double
  | 0, _ => []
  | n + 1, v => v :: forcedEntries interval n (v + interval)

def computeAxisValues (axis : AxisBase Double) (yMin yMax : Double) :
    Except Trap (AxisBase Double) :=
  let range := abs (yMax - yMin)
  if axis.labelCount = 0 || le range (ofInt 0) || isInfinite range then
    pure { axis with entries := [], centeredEntries := [] }
  else do
    let rawInterval := range / ofInt axis.labelCount
    let interval ← roundedToNextSignficant rawInterval
    let interval :=
      if axis.granularityEnabled && lt interval axis.granularity then
        axis.granularity
      else interval
    let interval ← normalizedInterval interval
    let interval :=
      if axis.forceLabelsEnabled then range / ofInt (axis.labelCount - 1)
      else interval
    let entries :=
      if axis.forceLabelsEnabled then
        forcedEntries interval axis.labelCount yMin
      else axis.entriesBetween yMin yMax interval
    let decimals ←
      if lt interval (ofInt 1) then toInt (ceil (-log10 interval)) else pure 0
    pure
      { axis with
        entries, decimals
        centeredEntries :=
          if axis.centerAxisLabelsEnabled then
            entries.map (· + interval / ofInt 2)
          else axis.centeredEntries }

end AxisBase

/-! ## The chart -/

structure BarChartView (Double : Type) where
  data : Option (BarChartData Double)
  /-- The digits of the default formatter of the values. -/
  decimals : Option Int
  xAxis : AxisBase Double
  leftAxis : AxisBase Double
  rightAxis : AxisBase Double

namespace BarChartView

def initial : BarChartView Double where
  data := none
  decimals := none
  xAxis := .initSpace (ofInt 1 / ofInt 2)
  leftAxis := .initSpace (ofInt 1 / ofInt 10)
  rightAxis := .initSpace (ofInt 1 / ofInt 10)

/-- `setupDefaultFormatter(min:max:)`: the digits that the values need. -/
def setupDefaultFormatter (data : BarChartData Double) : Except Trap Int :=
  let absMin := abs data.yMin
  let absMax := abs data.yMax
  decimalPlaces
    (if 2 ≤ data.dataSet.entries.length then abs (data.yMax - data.yMin)
    else if lt absMax absMin then absMin else absMax)

/-- `calcMinMax`; the bars are not fitted. -/
def calcMinMax (chart : BarChartView Double) (data : BarChartData Double) :
    BarChartView Double :=
  { chart with
    xAxis := chart.xAxis.calculateX data.xMin data.xMax
    leftAxis := chart.leftAxis.calculateY data.leftRange.1 data.leftRange.2
    rightAxis :=
      chart.rightAxis.calculateY data.rightRange.1 data.rightRange.2 }

/-- `notifyDataSetChanged`, of a chart that has not been zoomed. -/
def notifyDataSetChanged (chart : BarChartView Double)
    (data : BarChartData Double) : Except Trap (BarChartView Double) := do
  let chart := chart.calcMinMax data
  let leftAxis ← chart.leftAxis.computeAxisValues chart.leftAxis.axisMinimum
    chart.leftAxis.axisMaximum
  let rightAxis ← chart.rightAxis.computeAxisValues chart.rightAxis.axisMinimum
    chart.rightAxis.axisMaximum
  let xAxis ← chart.xAxis.computeAxisValues chart.xAxis.axisMinimum
    chart.xAxis.axisMaximum
  pure { chart with leftAxis, rightAxis, xAxis }

def setData (chart : BarChartView Double) (data : BarChartData Double) :
    Except Trap (BarChartView Double) := do
  let digits ← setupDefaultFormatter data
  { chart with data := some data, decimals := some digits }.notifyDataSetChanged
    data

end BarChartView

end

end Charts

end Grocr
