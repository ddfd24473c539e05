import MlirCore.Affine.Fold

/-!
# The `affine.for` operation: bounds, step and their setters

An `affine.for` keeps its bounds' operands in one list, the lower bound's first, which the
accessors split at the lower map's input count, so each setter rebuilds the list in order. Each
setter changes its own bound and nothing else, and a loop `build` makes on valid operands
verifies with a positive step and keeps doing so under setters given valid dims and symbols, which
neither bound setter checks. `getConstantMap`, `getSymbolIdentityMap`, `isSingleConstant` and
`getSingleConstantResult` are modelled from the spec; `none` stands where the source asserts.
-/

namespace Mlir

namespace AffineMap

/-- Modelled from the spec: `getConstantMap(value)`, no inputs and the one constant result. -/
def getConstantMap (value : Int) : AffineMap := ⟨0, 0, [.constant value]⟩

/-- Modelled from the spec: `getSymbolIdentityMap()`, `()[s0] -> (s0)`. -/
def getSymbolIdentityMap : AffineMap := ⟨0, 1, [.symbol 0]⟩

/-- Modelled from the spec: `isSingleConstant`, one result, which is a constant. -/
def isSingleConstant (map : AffineMap) : Bool :=
  match map.results with
  | [.constant _] => true
  | _ => false

/-- Modelled from the spec: `getSingleConstantResult`; `none` where it asserts. -/
def getSingleConstantResult (map : AffineMap) : Option Int :=
  match map.results with
  | [.constant value] => some value
  | _ => none

end AffineMap

/-- The body region as `verify` reads it: its block count, whether each entry argument has
`index` type, and whether the entry block is empty or ends with `affine.terminator`. -/
structure LoopBody where
  numBlocks : Nat
  argumentsAreIndex : List Bool
  hasAffineTerminator : Bool
  deriving Repr, DecidableEq

/-- An `affine.for`: its lower, then upper bound operands, its `lower_bound` and `upper_bound`
maps, its `step` and its body. -/
structure AffineForOp where
  operands : List Value
  lowerBoundMap : AffineMap
  upperBoundMap : AffineMap
  step : Int
  body : LoopBody
  deriving Repr, DecidableEq

namespace AffineForOp

/-- `getLowerBoundOperands`: the operands up to the lower bound map's input count. -/
def getLowerBoundOperands (op : AffineForOp) : List Value :=
  op.operands.take op.lowerBoundMap.numInputs

/-- `getUpperBoundOperands`: the operands after the lower bound map's inputs. -/
def getUpperBoundOperands (op : AffineForOp) : List Value :=
  op.operands.drop op.lowerBoundMap.numInputs

/-- `AffineForOp::build(lbOperands, lbMap, ubOperands, ubMap, step)`: a body of one block whose one
argument is the index induction variable and which ends with `affine.terminator`. -/
def build (lbOperands : List Value) (lbMap : AffineMap) (ubOperands : List Value)
    (ubMap : AffineMap) (step : Int) : Option AffineForOp := do
  guard (lbOperands.length = lbMap.numInputs)
  guard (ubOperands.length = ubMap.numInputs)
  guard (step > 0)
  pure ⟨lbOperands ++ ubOperands, lbMap, ubMap, step, ⟨1, [true], true⟩⟩

/-- `AffineForOp::build(lb, ub, step)`: constant bounds. -/
def buildConstant (lb ub step : Int) : Option AffineForOp :=
  build [] (AffineMap.getConstantMap lb) [] (AffineMap.getConstantMap ub) step

/-- `setLowerBound(lbOperands, map)`: the new lower bound operands before the upper bound operands,
which are read while the old map still delimits them, then the new map. -/
def setLowerBound (op : AffineForOp) (lbOperands : List Value) (map : AffineMap) :
    Option AffineForOp := do
  guard (lbOperands.length = map.numInputs)
  guard (map.results.length ≥ 1)
  let newOperands := lbOperands ++ op.getUpperBoundOperands
  pure { op with operands := newOperands, lowerBoundMap := map }

/-- `setUpperBound(ubOperands, map)`: the lower bound operands, then the new upper bound operands,
then the new map. -/
def setUpperBound (op : AffineForOp) (ubOperands : List Value) (map : AffineMap) :
    Option AffineForOp := do
  guard (ubOperands.length = map.numInputs)
  guard (map.results.length ≥ 1)
  let newOperands := op.getLowerBoundOperands ++ ubOperands
  pure { op with operands := newOperands, upperBoundMap := map }

/-- `setLowerBoundMap(map)`: a map over as many dims and symbols, with the operands kept. -/
def setLowerBoundMap (op : AffineForOp) (map : AffineMap) : Option AffineForOp := do
  guard (op.lowerBoundMap.numDims = map.numDims ∧ op.lowerBoundMap.numSymbols = map.numSymbols)
  guard (map.results.length ≥ 1)
  pure { op with lowerBoundMap := map }

/-- `setUpperBoundMap(map)`: a map over as many dims and symbols, with the operands kept. -/
def setUpperBoundMap (op : AffineForOp) (map : AffineMap) : Option AffineForOp := do
  guard (op.upperBoundMap.numDims = map.numDims ∧ op.upperBoundMap.numSymbols = map.numSymbols)
  guard (map.results.length ≥ 1)
  pure { op with upperBoundMap := map }

/-- `setStep(step)`: a positive step. -/
def setStep (op : AffineForOp) (step : Int) : Option AffineForOp := do
  guard (step > 0)
  pure { op with step }

/-- `hasConstantLowerBound`. -/
def hasConstantLowerBound (op : AffineForOp) : Bool := op.lowerBoundMap.isSingleConstant

/-- `hasConstantUpperBound`. -/
def hasConstantUpperBound (op : AffineForOp) : Bool := op.upperBoundMap.isSingleConstant

/-- `getConstantLowerBound`; `none` where it asserts. -/
def getConstantLowerBound (op : AffineForOp) : Option Int :=
  op.lowerBoundMap.getSingleConstantResult

/-- `getConstantUpperBound`; `none` where it asserts. -/
def getConstantUpperBound (op : AffineForOp) : Option Int :=
  op.upperBoundMap.getSingleConstantResult

/-- `setConstantLowerBound(value)`. -/
def setConstantLowerBound (op : AffineForOp) (value : Int) : Option AffineForOp :=
  op.setLowerBound [] (AffineMap.getConstantMap value)

/-- `setConstantUpperBound(value)`. -/
def setConstantUpperBound (op : AffineForOp) (value : Int) : Option AffineForOp :=
  op.setUpperBound [] (AffineMap.getConstantMap value)

/-- `AffineForOp::verify`: one block with one index argument ending with `affine.terminator`, the
operand count of the two maps, and valid dims and symbols for each bound. -/
def verify (ir : IR) (op : AffineForOp) : Except String Unit := do
  if op.body.numBlocks ≠ 1 then
    emitOpError "affine.for" "expected body region to have a single block"
  if op.body.argumentsAreIndex ≠ [true] then
    emitOpError "affine.for"
      "expected body to have a single index argument for the induction variable"
  if !op.body.hasAffineTerminator then
    emitOpError "affine.for" "expects regions to end with 'affine.terminator'"
  if op.operands.length ≠ op.lowerBoundMap.numInputs + op.upperBoundMap.numInputs then
    emitOpError "affine.for" "operand count must match with affine map dimension and symbol count"
  verifyDimAndSymbolIdentifiers ir "affine.for" op.getLowerBoundOperands op.lowerBoundMap.numDims
  verifyDimAndSymbolIdentifiers ir "affine.for" op.getUpperBoundOperands op.upperBoundMap.numDims

/-- What `verify` checks, all at once. -/
theorem verify_eq_ok {ir : IR} {op : AffineForOp} :
    op.verify ir = .ok () ↔
      op.body = ⟨1, [true], true⟩ ∧
        op.operands.length = op.lowerBoundMap.numInputs + op.upperBoundMap.numInputs ∧
        verifyDimAndSymbolIdentifiers ir "affine.for" op.getLowerBoundOperands
          op.lowerBoundMap.numDims = .ok () ∧
        verifyDimAndSymbolIdentifiers ir "affine.for" op.getUpperBoundOperands
          op.upperBoundMap.numDims = .ok () := by
  obtain ⟨operands, lowerBoundMap, upperBoundMap, step, ⟨numBlocks, args, terminated⟩⟩ := op
  simp only [verify, emitOpError_bind, ite_emitOpError_eq_ok, except_bind_eq_ok]
  cases terminated <;> simp [pure, Except.pure, and_assoc]

/-! ## Setters -/

/-- The operation's bounds read back as `lbOperands` under `lbMap` and `ubOperands` under `ubMap`. -/
structure HasBounds (op : AffineForOp) (lbOperands : List Value) (lbMap : AffineMap)
    (ubOperands : List Value) (ubMap : AffineMap) : Prop where
  lowerOperands : op.getLowerBoundOperands = lbOperands
  lowerMap : op.lowerBoundMap = lbMap
  upperOperands : op.getUpperBoundOperands = ubOperands
  upperMap : op.upperBoundMap = ubMap

/-- The operands are `lbOperands`, as many as the lower bound map has inputs, then `ubOperands`. -/
structure LaidOut (op : AffineForOp) (lbOperands ubOperands : List Value) : Prop where
  operands_eq : op.operands = lbOperands ++ ubOperands
  lower_length : lbOperands.length = op.lowerBoundMap.numInputs

/-- Operands laid out bound by bound read back as such. -/
theorem LaidOut.hasBounds {op : AffineForOp} {lbOperands ubOperands : List Value}
    (h : op.LaidOut lbOperands ubOperands) :
    op.HasBounds lbOperands op.lowerBoundMap ubOperands op.upperBoundMap :=
  ⟨by rw [getLowerBoundOperands, h.operands_eq, List.take_left' h.lower_length], rfl,
    by rw [getUpperBoundOperands, h.operands_eq, List.drop_left' h.lower_length], rfl⟩

/-- An operation is determined by how its bounds read back, its step and its body. -/
theorem HasBounds.eq_mk {op : AffineForOp} {lbOperands ubOperands : List Value}
    {lbMap ubMap : AffineMap} (h : op.HasBounds lbOperands lbMap ubOperands ubMap) :
    op = ⟨lbOperands ++ ubOperands, lbMap, ubMap, op.step, op.body⟩ := by
  obtain ⟨operands, lowerBoundMap, upperBoundMap, step, body⟩ := op
  obtain ⟨hl, rfl, hu, rfl⟩ := h
  simp only [getLowerBoundOperands, getUpperBoundOperands] at hl hu
  rw [← hl, ← hu, List.take_append_drop]

section Setters

variable {op op' : AffineForOp}

/-- An assertion passes exactly when its condition holds and the rest then passes. -/
theorem guard_bind_eq_some {p : Prop} [Decidable p] {α : Type} {f : Unit → Option α} {a : α} :
    (guard p >>= f) = some a ↔ p ∧ f () = some a := by
  by_cases hp : p <;> simp [guard, hp, failure]

/-- A bound map has a result exactly when its result count is at least one. -/
theorem one_le_length_iff {map : AffineMap} : map.results.length ≥ 1 ↔ map.results ≠ [] := by
  rw [ge_iff_le, Nat.one_le_iff_ne_zero, ne_eq, List.length_eq_zero]

/-- `setLowerBound` passes its assertions exactly when the operands fit the map and the map has a
result, and then replaces the operands before the upper bound's and the lower bound map. -/
theorem setLowerBound_eq_some {lbOperands : List Value} {map : AffineMap} :
    op.setLowerBound lbOperands map = some op' ↔
      lbOperands.length = map.numInputs ∧ map.results ≠ [] ∧
        op' = { op with operands := lbOperands ++ op.getUpperBoundOperands, lowerBoundMap := map } := by
  simp only [setLowerBound, guard_bind_eq_some, one_le_length_iff, Option.pure_def,
    Option.some.injEq, @eq_comm _ _ op']

/-- `setUpperBound` passes its assertions exactly when the operands fit the map and the map has a
result, and then replaces the operands after the lower bound's and the upper bound map. -/
theorem setUpperBound_eq_some {ubOperands : List Value} {map : AffineMap} :
    op.setUpperBound ubOperands map = some op' ↔
      ubOperands.length = map.numInputs ∧ map.results ≠ [] ∧
        op' = { op with operands := op.getLowerBoundOperands ++ ubOperands, upperBoundMap := map } := by
  simp only [setUpperBound, guard_bind_eq_some, one_le_length_iff, Option.pure_def,
    Option.some.injEq, @eq_comm _ _ op']

/-- `setLowerBoundMap` passes its assertions exactly when the map has the old one's dims and
symbols and a result, and then only replaces the lower bound map. -/
theorem setLowerBoundMap_eq_some {map : AffineMap} :
    op.setLowerBoundMap map = some op' ↔
      op.lowerBoundMap.numDims = map.numDims ∧ op.lowerBoundMap.numSymbols = map.numSymbols ∧
        map.results ≠ [] ∧ op' = { op with lowerBoundMap := map } := by
  simp only [setLowerBoundMap, guard_bind_eq_some, one_le_length_iff, Option.pure_def,
    Option.some.injEq, @eq_comm _ _ op', and_assoc]

/-- `setUpperBoundMap` passes its assertions exactly when the map has the old one's dims and
symbols and a result, and then only replaces the upper bound map. -/
theorem setUpperBoundMap_eq_some {map : AffineMap} :
    op.setUpperBoundMap map = some op' ↔
      op.upperBoundMap.numDims = map.numDims ∧ op.upperBoundMap.numSymbols = map.numSymbols ∧
        map.results ≠ [] ∧ op' = { op with upperBoundMap := map } := by
  simp only [setUpperBoundMap, guard_bind_eq_some, one_le_length_iff, Option.pure_def,
    Option.some.injEq, @eq_comm _ _ op', and_assoc]

/-- `setStep` passes its assertion exactly when the step is positive, and then only replaces the
step. -/
theorem setStep_eq_some {step : Int} :
    op.setStep step = some op' ↔ 0 < step ∧ op' = { op with step } := by
  simp only [setStep, guard_bind_eq_some, gt_iff_lt, Option.pure_def, Option.some.injEq,
    @eq_comm _ _ op']

/-- `setConstantLowerBound` always passes its assertions: the constant lower bound has no operands,
and the upper bound's operands come first. -/
theorem setConstantLowerBound_eq (op : AffineForOp) (value : Int) :
    op.setConstantLowerBound value = some { op with
      operands := op.getUpperBoundOperands
      lowerBoundMap := AffineMap.getConstantMap value } :=
  setLowerBound_eq_some.mpr ⟨rfl, by simp [AffineMap.getConstantMap], rfl⟩

/-- `setConstantUpperBound` always passes its assertions: the constant upper bound has no operands,
so only the lower bound's operands stay. -/
theorem setConstantUpperBound_eq (op : AffineForOp) (value : Int) :
    op.setConstantUpperBound value = some { op with
      operands := op.getLowerBoundOperands
      upperBoundMap := AffineMap.getConstantMap value } :=
  setUpperBound_eq_some.mpr ⟨rfl, by simp [AffineMap.getConstantMap], by rw [List.append_nil]⟩

/-- `setLowerBound` lays out the new lower bound operands before the upper bound's, and keeps the
step and the body. -/
theorem LaidOut.setLowerBound {lbOperands ubOperands operands : List Value} {map : AffineMap}
    (hlaid : op.LaidOut lbOperands ubOperands) (h : op.setLowerBound operands map = some op') :
    op'.LaidOut operands ubOperands ∧ op'.lowerBoundMap = map ∧
      op'.upperBoundMap = op.upperBoundMap ∧ op'.step = op.step ∧ op'.body = op.body := by
  obtain ⟨hlen, -, rfl⟩ := setLowerBound_eq_some.mp h
  exact ⟨⟨by rw [← hlaid.hasBounds.upperOperands], hlen⟩, rfl, rfl, rfl, rfl⟩

/-- `setUpperBound` lays out the new upper bound operands after the lower bound's, and keeps the
lower bound map, the step and the body. -/
theorem LaidOut.setUpperBound {lbOperands ubOperands operands : List Value} {map : AffineMap}
    (hlaid : op.LaidOut lbOperands ubOperands) (h : op.setUpperBound operands map = some op') :
    op'.LaidOut lbOperands operands ∧ op'.lowerBoundMap = op.lowerBoundMap ∧
      op'.upperBoundMap = map ∧ op'.step = op.step ∧ op'.body = op.body := by
  obtain ⟨-, -, rfl⟩ := setUpperBound_eq_some.mp h
  exact ⟨⟨by rw [← hlaid.hasBounds.lowerOperands], hlaid.lower_length⟩, rfl, rfl, rfl, rfl⟩

/-- Each setter succeeds exactly when its assertions hold and then changes only its own bound,
map or step; the operands are `lbOperands`, one per lower map input, then `ubOperands`. -/
theorem setters_change_only_their_bound {lbOperands ubOperands : List Value}
    (hoperands : op.operands = lbOperands ++ ubOperands)
    (hlb : lbOperands.length = op.lowerBoundMap.numInputs) :
    (∀ operands map op', op.setLowerBound operands map = some op' ↔
      operands.length = map.numInputs ∧ map.results ≠ [] ∧
        op'.HasBounds operands map ubOperands op.upperBoundMap ∧ op'.step = op.step ∧
        op'.body = op.body) ∧
    (∀ operands map op', op.setUpperBound operands map = some op' ↔
      operands.length = map.numInputs ∧ map.results ≠ [] ∧
        op'.HasBounds lbOperands op.lowerBoundMap operands map ∧ op'.step = op.step ∧
        op'.body = op.body) ∧
    (∀ map op', op.setLowerBoundMap map = some op' ↔
      op.lowerBoundMap.numDims = map.numDims ∧ op.lowerBoundMap.numSymbols = map.numSymbols ∧
        map.results ≠ [] ∧ op' = { op with lowerBoundMap := map }) ∧
    (∀ map op', op.setUpperBoundMap map = some op' ↔
      op.upperBoundMap.numDims = map.numDims ∧ op.upperBoundMap.numSymbols = map.numSymbols ∧
        map.results ≠ [] ∧ op' = { op with upperBoundMap := map }) ∧
    (∀ step op', op.setStep step = some op' ↔ 0 < step ∧ op' = { op with step }) := by
  have hlaid : op.LaidOut lbOperands ubOperands := ⟨hoperands, hlb⟩
  refine ⟨fun operands map op' => ⟨fun h => ?_, fun ⟨hlen, hres, hbounds, hstep, hbody⟩ => ?_⟩,
    fun operands map op' => ⟨fun h => ?_, fun ⟨hlen, hres, hbounds, hstep, hbody⟩ => ?_⟩,
    fun _ _ => setLowerBoundMap_eq_some, fun _ _ => setUpperBoundMap_eq_some,
    fun _ _ => setStep_eq_some⟩
  · obtain ⟨hlen, hres, -⟩ := setLowerBound_eq_some.mp h
    obtain ⟨hlaid', hmap, hupper, hstep, hbody⟩ := hlaid.setLowerBound h
    exact ⟨hlen, hres, hmap ▸ hupper ▸ hlaid'.hasBounds, hstep, hbody⟩
  · refine setLowerBound_eq_some.mpr ⟨hlen, hres, ?_⟩
    rw [hbounds.eq_mk, hstep, hbody, hlaid.hasBounds.upperOperands]
  · obtain ⟨hlen, hres, -⟩ := setUpperBound_eq_some.mp h
    obtain ⟨hlaid', hlower, hmap, hstep, hbody⟩ := hlaid.setUpperBound h
    exact ⟨hlen, hres, hmap ▸ hlower ▸ hlaid'.hasBounds, hstep, hbody⟩
  · refine setUpperBound_eq_some.mpr ⟨hlen, hres, ?_⟩
    rw [hbounds.eq_mk, hstep, hbody, hlaid.hasBounds.lowerOperands]

end Setters

/-- A loop from `%a` (value `0`) to `%b` (value `1`), both bounds `()[s0] -> (s0)`. -/
def symbolBoundsLoop : AffineForOp :=
  ⟨[0, 1], AffineMap.getSymbolIdentityMap, AffineMap.getSymbolIdentityMap, 1, ⟨1, [true], true⟩⟩

/-- The setter laws on `symbolBoundsLoop`, whose operands are `[%a]` then `[%b]`. -/
theorem setters_change_only_their_bound_symbolBoundsLoop :
    symbolBoundsLoop.operands = [0] ++ [1] ∧
      [0].length = symbolBoundsLoop.lowerBoundMap.numInputs ∧
      ((∀ operands map op', symbolBoundsLoop.setLowerBound operands map = some op' ↔
        operands.length = map.numInputs ∧ map.results ≠ [] ∧
          op'.HasBounds operands map [1] symbolBoundsLoop.upperBoundMap ∧
          op'.step = symbolBoundsLoop.step ∧ op'.body = symbolBoundsLoop.body) ∧
      (∀ operands map op', symbolBoundsLoop.setUpperBound operands map = some op' ↔
        operands.length = map.numInputs ∧ map.results ≠ [] ∧
          op'.HasBounds [0] symbolBoundsLoop.lowerBoundMap operands map ∧
          op'.step = symbolBoundsLoop.step ∧ op'.body = symbolBoundsLoop.body) ∧
      (∀ map op', symbolBoundsLoop.setLowerBoundMap map = some op' ↔
        symbolBoundsLoop.lowerBoundMap.numDims = map.numDims ∧
          symbolBoundsLoop.lowerBoundMap.numSymbols = map.numSymbols ∧ map.results ≠ [] ∧
          op' = { symbolBoundsLoop with lowerBoundMap := map }) ∧
      (∀ map op', symbolBoundsLoop.setUpperBoundMap map = some op' ↔
        symbolBoundsLoop.upperBoundMap.numDims = map.numDims ∧
          symbolBoundsLoop.upperBoundMap.numSymbols = map.numSymbols ∧ map.results ≠ [] ∧
          op' = { symbolBoundsLoop with upperBoundMap := map }) ∧
      (∀ step op', symbolBoundsLoop.setStep step = some op' ↔
        0 < step ∧ op' = { symbolBoundsLoop with step })) :=
  ⟨rfl, rfl, setters_change_only_their_bound rfl rfl⟩

/-! ## Runs of setters -/

/-- A call of one of the setters of `affine.for`. -/
inductive Setter where
  | setLowerBound (operands : List Value) (map : AffineMap)
  | setUpperBound (operands : List Value) (map : AffineMap)
  | setLowerBoundMap (map : AffineMap)
  | setUpperBoundMap (map : AffineMap)
  | setStep (step : Int)

/-- The call on an operation; `none` where it asserts. -/
def Setter.apply : Setter → AffineForOp → Option AffineForOp
  | .setLowerBound operands map, op => op.setLowerBound operands map
  | .setUpperBound operands map, op => op.setUpperBound operands map
  | .setLowerBoundMap map, op => op.setLowerBoundMap map
  | .setUpperBoundMap map, op => op.setUpperBoundMap map
  | .setStep step, op => op.setStep step

/-- The setters called one after the other; `none` where one asserts. -/
def applySetters : List Setter → AffineForOp → Option AffineForOp
  | [], op => some op
  | setter :: rest, op => setter.apply op >>= applySetters rest

/-- The operands are as many as the two bound maps have inputs, as `verify` checks. -/
def OperandCountMatches (op : AffineForOp) : Prop :=
  op.operands.length = op.lowerBoundMap.numInputs + op.upperBoundMap.numInputs

/-- Each setter keeps the operand count matching and the body. -/
theorem Setter.apply_operandCountMatches {setter : Setter} {op op' : AffineForOp}
    (h : setter.apply op = some op') (hcount : op.OperandCountMatches) :
    op'.OperandCountMatches ∧ op'.body = op.body := by
  unfold OperandCountMatches at hcount ⊢
  cases setter with
  | setLowerBound operands map =>
    obtain ⟨hlen, -, rfl⟩ := setLowerBound_eq_some.mp h
    refine ⟨?_, rfl⟩
    simp only [getUpperBoundOperands, List.length_append, List.length_drop, hlen]
    omega
  | setUpperBound operands map =>
    obtain ⟨hlen, -, rfl⟩ := setUpperBound_eq_some.mp h
    refine ⟨?_, rfl⟩
    simp only [getLowerBoundOperands, List.length_append, List.length_take, hlen]
    omega
  | setLowerBoundMap map =>
    obtain ⟨hdims, hsymbols, -, rfl⟩ := setLowerBoundMap_eq_some.mp h
    refine ⟨?_, rfl⟩
    simp only [AffineMap.numInputs] at hcount ⊢
    omega
  | setUpperBoundMap map =>
    obtain ⟨hdims, hsymbols, -, rfl⟩ := setUpperBoundMap_eq_some.mp h
    refine ⟨?_, rfl⟩
    simp only [AffineMap.numInputs] at hcount ⊢
    omega
  | setStep step =>
    obtain ⟨-, rfl⟩ := setStep_eq_some.mp h
    exact ⟨hcount, rfl⟩

/-- Running two lists of setters is running the first, then the second. -/
theorem applySetters_append (setters rest : List Setter) (op : AffineForOp) :
    applySetters (setters ++ rest) op = applySetters setters op >>= applySetters rest := by
  induction setters generalizing op with
  | nil => rfl
  | cons setter setters ih =>
    show setter.apply op >>= applySetters (setters ++ rest) =
      setter.apply op >>= applySetters setters >>= applySetters rest
    cases setter.apply op with
    | none => rfl
    | some mid => exact ih mid

/-! ## The loops the builders and setters make verify -/

/-- The bound operands are valid dims and symbols of `ir` for their maps, the last two checks of
`verify`. -/
def BoundsValid (ir : IR) (op : AffineForOp) : Prop :=
  verifyDimAndSymbolIdentifiers ir "affine.for" op.getLowerBoundOperands op.lowerBoundMap.numDims =
      .ok () ∧
    verifyDimAndSymbolIdentifiers ir "affine.for" op.getUpperBoundOperands
      op.upperBoundMap.numDims = .ok ()

/-- What a setter needs for the loop to keep verifying: new bound operands that are valid dims
and symbols for the new map, which neither bound setter checks. -/
def Setter.ValidIn (ir : IR) : Setter → Prop
  | .setLowerBound operands map | .setUpperBound operands map =>
    verifyDimAndSymbolIdentifiers ir "affine.for" operands map.numDims = .ok ()
  | _ => True

/-- Operands as many as the two maps have inputs are laid out bound by bound. -/
theorem OperandCountMatches.laidOut {op : AffineForOp} (hcount : op.OperandCountMatches) :
    op.LaidOut op.getLowerBoundOperands op.getUpperBoundOperands :=
  ⟨(List.take_append_drop _ _).symm, by
    simp only [OperandCountMatches, getLowerBoundOperands, List.length_take] at hcount ⊢
    omega⟩

/-- Each setter keeps the bound operands valid when its own new operands are. -/
theorem Setter.apply_boundsValid {ir : IR} {setter : Setter} {op op' : AffineForOp}
    (h : setter.apply op = some op') (hcount : op.OperandCountMatches) (hvalid : setter.ValidIn ir)
    (hbounds : op.BoundsValid ir) : op'.BoundsValid ir := by
  cases setter with
  | setLowerBound operands map =>
    obtain ⟨hlaid, hmap, hupper, -, -⟩ := hcount.laidOut.setLowerBound h
    unfold BoundsValid
    rw [hlaid.hasBounds.lowerOperands, hlaid.hasBounds.upperOperands, hmap, hupper]
    exact ⟨hvalid, hbounds.2⟩
  | setUpperBound operands map =>
    obtain ⟨hlaid, hlower, hmap, -, -⟩ := hcount.laidOut.setUpperBound h
    unfold BoundsValid
    rw [hlaid.hasBounds.lowerOperands, hlaid.hasBounds.upperOperands, hlower, hmap]
    exact ⟨hbounds.1, hvalid⟩
  | setLowerBoundMap map =>
    -- a map over as many dims and symbols delimits the same operands
    obtain ⟨hdims, hsymbols, -, rfl⟩ := setLowerBoundMap_eq_some.mp h
    have hinputs : map.numInputs = op.lowerBoundMap.numInputs := by
      simp only [AffineMap.numInputs]
      omega
    simpa only [BoundsValid, getLowerBoundOperands, getUpperBoundOperands, hinputs, ← hdims]
      using hbounds
  | setUpperBoundMap map =>
    obtain ⟨hdims, -, -, rfl⟩ := setUpperBoundMap_eq_some.mp h
    simpa only [BoundsValid, getLowerBoundOperands, getUpperBoundOperands, ← hdims] using hbounds
  | setStep step =>
    obtain ⟨-, rfl⟩ := setStep_eq_some.mp h
    exact hbounds

/-- Each setter keeps the step positive: `setStep` asserts it, and the others keep the step. -/
theorem Setter.apply_step_pos {setter : Setter} {op op' : AffineForOp}
    (h : setter.apply op = some op') (hstep : 0 < op.step) : 0 < op'.step := by
  cases setter with
  | setLowerBound operands map => obtain ⟨-, -, rfl⟩ := setLowerBound_eq_some.mp h; exact hstep
  | setUpperBound operands map => obtain ⟨-, -, rfl⟩ := setUpperBound_eq_some.mp h; exact hstep
  | setLowerBoundMap map => obtain ⟨-, -, -, rfl⟩ := setLowerBoundMap_eq_some.mp h; exact hstep
  | setUpperBoundMap map => obtain ⟨-, -, -, rfl⟩ := setUpperBoundMap_eq_some.mp h; exact hstep
  | setStep step => obtain ⟨hpos, rfl⟩ := setStep_eq_some.mp h; exact hpos

/-- A setter with valid new bound operands keeps a loop verifying with a positive step. -/
theorem Setter.apply_verify {ir : IR} {setter : Setter} {op op' : AffineForOp}
    (h : setter.apply op = some op') (hvalid : setter.ValidIn ir) (hverify : op.verify ir = .ok ())
    (hstep : 0 < op.step) : op'.verify ir = .ok () ∧ 0 < op'.step := by
  obtain ⟨hbody, hcount, hbounds⟩ := verify_eq_ok.mp hverify
  obtain ⟨hcount', hbody'⟩ := Setter.apply_operandCountMatches h hcount
  exact ⟨verify_eq_ok.mpr ⟨hbody'.trans hbody, hcount',
    Setter.apply_boundsValid h hcount hvalid hbounds⟩, Setter.apply_step_pos h hstep⟩

/-- Every run of setters with valid new bound operands keeps a loop verifying with a positive
step. -/
theorem applySetters_verify {ir : IR} :
    ∀ {setters : List Setter} {op op' : AffineForOp}, applySetters setters op = some op' →
      (∀ setter ∈ setters, setter.ValidIn ir) → op.verify ir = .ok () → 0 < op.step →
      op'.verify ir = .ok () ∧ 0 < op'.step
  | [], _, _, h, _, hverify, hstep => by cases h; exact ⟨hverify, hstep⟩
  | _ :: _, _, _, h, hvalid, hverify, hstep => by
    obtain ⟨mid, hmid, hrest⟩ := Option.bind_eq_some.mp h
    obtain ⟨hverify', hstep'⟩ :=
      Setter.apply_verify hmid (hvalid _ (List.mem_cons_self _ _)) hverify hstep
    exact applySetters_verify hrest (fun setter hs => hvalid setter (List.mem_cons_of_mem _ hs))
      hverify' hstep'

/-- `build` on valid bound operands makes a loop that verifies, with a positive step. -/
theorem build_verify {ir : IR} {lbOperands ubOperands : List Value} {lbMap ubMap : AffineMap}
    {step : Int} {op : AffineForOp} (h : build lbOperands lbMap ubOperands ubMap step = some op)
    (hlb : verifyDimAndSymbolIdentifiers ir "affine.for" lbOperands lbMap.numDims = .ok ())
    (hub : verifyDimAndSymbolIdentifiers ir "affine.for" ubOperands ubMap.numDims = .ok ()) :
    op.verify ir = .ok () ∧ 0 < op.step := by
  simp only [build, guard_bind_eq_some, Option.pure_def, Option.some.injEq] at h
  obtain ⟨hlbLength, hubLength, hstep, rfl⟩ := h
  have hlaid : LaidOut ⟨lbOperands ++ ubOperands, lbMap, ubMap, step, ⟨1, [true], true⟩⟩
      lbOperands ubOperands := ⟨rfl, hlbLength⟩
  refine ⟨verify_eq_ok.mpr ⟨rfl, by simp [hlbLength, hubLength], ?_, ?_⟩, hstep⟩
  · rw [hlaid.hasBounds.lowerOperands]
    exact hlb
  · rw [hlaid.hasBounds.upperOperands]
    exact hub

end AffineForOp

end Mlir
