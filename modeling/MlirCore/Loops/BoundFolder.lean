import MlirCore.Loops.AffineFor

/-!
# Folding constant loop bounds

`AffineForLoopBoundFolder` constant-folds each bound of an `affine.for` that is not a single
constant yet, on the constants `m_Constant` finds for its operands, and makes it the constant at
the largest (lower) or smallest (upper) result; the upper bound is read after the lower bound's
rewrite. Each bound ends as `foldedBound` says, and step and body are kept. Each rewrite is a run
of setters, so every loop the API makes verifies with a positive step (`Reachable.verifies`): the
step `0` that `verify` accepts comes only from the parser.
-/

namespace Mlir

namespace AffineExpr

/-- Every operand the expression references has a constant: dim `i` operand `i`, symbol `j`
operand `numDims + j`. -/
def referencesConstants (numDims : Nat) (operandConstants : List (Option Int)) :
    AffineExpr → Bool
  | dim i => (operandConstants.getD i none).isSome
  | symbol j => (operandConstants.getD (numDims + j) none).isSome
  | constant _ => true
  | binary _ lhs rhs =>
    lhs.referencesConstants numDims operandConstants &&
      rhs.referencesConstants numDims operandConstants

/-- Constant folding an expression succeeds exactly when every operand it references has a
constant. -/
theorem constantFold_isSome_eq {numDims : Nat} {operandConstants : List (Option Int)}
    (e : AffineExpr) :
    (e.constantFold numDims operandConstants).isSome =
      e.referencesConstants numDims operandConstants := by
  induction e with
  | dim i => rfl
  | symbol j => rfl
  | constant c => rfl
  | binary k lhs rhs ihl ihr =>
    rw [referencesConstants, ← ihl, ← ihr, constantFold]
    cases lhs.constantFold numDims operandConstants <;>
      cases rhs.constantFold numDims operandConstants <;> rfl

end AffineExpr

namespace AffineMap

/-- Every operand the map's results reference has a constant. -/
def referencesConstants (map : AffineMap) (operandConstants : List (Option Int)) : Bool :=
  map.results.all (AffineExpr.referencesConstants map.numDims operandConstants)

/-- Constant folding a map succeeds exactly when every operand it references has a constant. -/
theorem constantFold_isSome_eq {map : AffineMap} {operandConstants : List (Option Int)} :
    (map.constantFold operandConstants).isSome = map.referencesConstants operandConstants := by
  obtain ⟨numDims, numSymbols, results⟩ := map
  simp only [constantFold, referencesConstants]
  induction results with
  | nil => rfl
  | cons e es ih =>
    rw [List.mapM_cons, List.all_cons, ← AffineExpr.constantFold_isSome_eq, ← ih]
    cases e.constantFold numDims operandConstants <;>
      cases es.mapM (AffineExpr.constantFold numDims operandConstants) <;> rfl

/-- On the constants of its operands, a map that references only operands with a constant folds
to its values. -/
theorem constantFold_eq_evalOn {map : AffineMap} {operands : List Value}
    {constantOf : Value → Option Int} (h : map.referencesConstants (operands.map constantOf)) :
    map.constantFold (operands.map constantOf) =
      some (map.evalOn (operands.map fun v => (constantOf v).getD 0)) := by
  have hmatch : AttributesMatch operands (operands.map constantOf) fun v => (constantOf v).getD 0 := by
    intro i c hc
    rw [List.getElem?_map] at hc
    cases hi : operands[i]? <;> simp_all
  rw [constantFold, evalOn, mapM_eq_some_iff_forall₂, List.forall₂_map_right_iff]
  refine List.forall₂_same.mpr fun e he => ?_
  obtain ⟨c, hc⟩ := Option.isSome_iff_exists.mp
    ((AffineExpr.constantFold_isSome_eq e).trans (List.all_eq_true.mp h e he))
  rw [hc, AffineExpr.constantFold_sound hmatch hc]

end AffineMap

/-- The bound the folder should leave: a non-constant bound whose referenced operands all have
constants becomes the max (lower) or min (upper) of its values; `none` without results. -/
def foldedBound (lower : Bool) (constantOf : Value → Option Int) (map : AffineMap)
    (operands : List Value) : Option (AffineMap × List Value) :=
  if !map.isSingleConstant && map.referencesConstants (operands.map constantOf) then
    let values := map.evalOn (operands.map fun v => (constantOf v).getD 0)
    (if lower then values.max? else values.min?).map fun bound =>
      (AffineMap.getConstantMap bound, [])
  else some (map, operands)

namespace AffineForLoopBoundFolder

/-- The lambda `foldLowerOrUpperBound`: fold one bound and set it to the largest or smallest
result; `some none` when folding fails, leaving the operation, and `none` where it asserts. -/
def foldLowerOrUpperBound (constantOf : Value → Option Int) (forOp : AffineForOp) (lower : Bool) :
    Option (Option AffineForOp) := do
  let boundOperands := if lower then forOp.getLowerBoundOperands else forOp.getUpperBoundOperands
  let operandConstants := boundOperands.map constantOf
  let boundMap := if lower then forOp.lowerBoundMap else forOp.upperBoundMap
  guard (boundMap.results.length ≥ 1)
  match boundMap.constantFold operandConstants with
  | none => pure none
  | some foldedResults =>
    let first ← foldedResults.head?
    let maxOrMin := foldedResults.tail.foldl (fun acc r => if lower then max acc r else min acc r) first
    let forOp ←
      (if lower then forOp.setConstantLowerBound maxOrMin else forOp.setConstantUpperBound maxOrMin)
    pure (some forOp)

/-- One bound's turn in `matchAndRewrite`: `folded |= succeeded(foldLowerOrUpperBound(lower))`
when the bound is not a single constant yet. -/
def foldIfNotConstant (constantOf : Value → Option Int) (lower : Bool)
    (state : Bool × AffineForOp) : Option (Bool × AffineForOp) := do
  let (folded, forOp) := state
  let hasConstant := if lower then forOp.hasConstantLowerBound else forOp.hasConstantUpperBound
  if hasConstant then pure (folded, forOp) else
  match ← foldLowerOrUpperBound constantOf forOp lower with
  | some forOp => pure (true, forOp)
  | none => pure (folded, forOp)

/-- `AffineForLoopBoundFolder::matchAndRewrite`: the lower bound, then the upper bound of the
rewritten operation. `some none` for `matchFailure`; `none` where it asserts. -/
def matchAndRewrite (constantOf : Value → Option Int) (forOp : AffineForOp) :
    Option (Option AffineForOp) := do
  let (folded, forOp) ←
    foldIfNotConstant constantOf true (false, forOp) >>= foldIfNotConstant constantOf false
  pure (if folded then some forOp else none)

end AffineForLoopBoundFolder

/-- The map and the operands of the lower (`lower`) or the upper bound. -/
def AffineForOp.bound (op : AffineForOp) (lower : Bool) : AffineMap × List Value :=
  if lower then (op.lowerBoundMap, op.getLowerBoundOperands)
  else (op.upperBoundMap, op.getUpperBoundOperands)

namespace AffineForLoopBoundFolder

variable {constantOf : Value → Option Int}

/-- Setting one bound to a constant leaves it with the constant map and no operands, and keeps the
other bound, the step and the body. -/
theorem setConstantBound_bound {lower : Bool} {op op' : AffineForOp} {value : Int}
    (h : (if lower then op.setConstantLowerBound value else op.setConstantUpperBound value) =
      some op') :
    op'.bound lower = (AffineMap.getConstantMap value, []) ∧ op'.bound (!lower) = op.bound (!lower) ∧
      op'.step = op.step ∧ op'.body = op.body := by
  cases lower with
  | true =>
    rw [if_pos rfl, AffineForOp.setConstantLowerBound_eq, Option.some.injEq] at h
    subst h
    exact ⟨by simp [AffineForOp.bound, AffineForOp.getLowerBoundOperands,
      AffineMap.getConstantMap, AffineMap.numInputs], by
        simp [AffineForOp.bound, AffineForOp.getUpperBoundOperands, AffineMap.getConstantMap,
          AffineMap.numInputs], rfl, rfl⟩
  | false =>
    rw [if_neg Bool.false_ne_true, AffineForOp.setConstantUpperBound_eq, Option.some.injEq] at h
    subst h
    exact ⟨by simp [AffineForOp.bound, AffineForOp.getUpperBoundOperands,
      AffineForOp.getLowerBoundOperands, Nat.min_le_left], by
        simp [AffineForOp.bound, AffineForOp.getLowerBoundOperands, Nat.min_le_left], rfl, rfl⟩

/-- Folding one bound with a result: when every referenced operand has a constant, the bound
becomes the largest (lower) or smallest (upper) value on them; otherwise nothing changes. -/
theorem foldLowerOrUpperBound_eq {lower : Bool} {op : AffineForOp}
    (hres : (op.bound lower).1.results ≠ []) :
    foldLowerOrUpperBound constantOf op lower =
      if (op.bound lower).1.referencesConstants ((op.bound lower).2.map constantOf) then
        ((if lower then ((op.bound lower).1.evalOn
              ((op.bound lower).2.map fun v => (constantOf v).getD 0)).max?
            else ((op.bound lower).1.evalOn
              ((op.bound lower).2.map fun v => (constantOf v).getD 0)).min?).bind fun value =>
          if lower then op.setConstantLowerBound value else op.setConstantUpperBound value).map some
      else some none := by
  have hbound : op.bound lower = ((if lower then op.lowerBoundMap else op.upperBoundMap),
      (if lower then op.getLowerBoundOperands else op.getUpperBoundOperands)) := by
    cases lower <;> rfl
  rw [hbound] at hres ⊢
  dsimp only at hres ⊢
  unfold foldLowerOrUpperBound
  dsimp only
  rw [guard, if_pos (Nat.one_le_iff_ne_zero.mpr (by simpa using hres)), pure_bind]
  cases hfold : (if lower then op.lowerBoundMap else op.upperBoundMap).constantFold
      ((if lower then op.getLowerBoundOperands else op.getUpperBoundOperands).map constantOf) with
  | none =>
    rw [← AffineMap.constantFold_isSome_eq, hfold]
    rfl
  | some foldedResults =>
    have hrefs : (if lower then op.lowerBoundMap else op.upperBoundMap).referencesConstants
        ((if lower then op.getLowerBoundOperands else op.getUpperBoundOperands).map constantOf) :=
      by rw [← AffineMap.constantFold_isSome_eq, hfold]; rfl
    rw [AffineMap.constantFold_eq_evalOn hrefs, Option.some.injEq] at hfold
    subst hfold
    obtain ⟨e, es, hes⟩ := List.exists_cons_of_ne_nil hres
    rw [if_pos hrefs]
    simp only [AffineMap.evalOn, hes, List.map_cons, List.head?_cons, List.tail_cons]
    cases lower <;> rfl

/-- Folding one bound asserts when the bound map has no result. -/
theorem foldLowerOrUpperBound_eq_none {lower : Bool} {op : AffineForOp}
    (hres : (op.bound lower).1.results = []) : foldLowerOrUpperBound constantOf op lower = none := by
  have hlen : ¬(if lower then op.lowerBoundMap else op.upperBoundMap).results.length ≥ 1 := by
    cases lower <;> simpa [AffineForOp.bound] using hres
  unfold foldLowerOrUpperBound
  dsimp only
  rw [guard, if_neg hlen]
  rfl

/-- A bound map with a result has a largest and a smallest value. -/
theorem exists_maxOrMin (lower : Bool) {map : AffineMap} (values : List Int)
    (hres : map.results ≠ []) :
    ∃ value, (if lower then (map.evalOn values).max? else (map.evalOn values).min?) = some value := by
  have hvalues : map.evalOn values ≠ [] := by simpa [AffineMap.evalOn] using hres
  cases lower <;> exact Option.ne_none_iff_exists'.mp (by simpa using hvalues)

/-- The folder's test for a bound already folded reads the bound's map. -/
theorem hasConstant_eq_isSingleConstant (lower : Bool) (op : AffineForOp) :
    (if lower then op.hasConstantLowerBound else op.hasConstantUpperBound) =
      (op.bound lower).1.isSingleConstant := by
  cases lower <;> rfl

/-- One bound's turn: the bound ends as `foldedBound` says; the other bound, the step and the body
are kept; and a flag left unset means an operation left alone. -/
theorem foldIfNotConstant_spec {lower folded folded' : Bool} {op op' : AffineForOp}
    (h : foldIfNotConstant constantOf lower (folded, op) = some (folded', op')) :
    foldedBound lower constantOf (op.bound lower).1 (op.bound lower).2 = some (op'.bound lower) ∧
      op'.bound (!lower) = op.bound (!lower) ∧ op'.step = op.step ∧ op'.body = op.body ∧
      (folded' = false → folded = false ∧ op' = op) := by
  unfold foldIfNotConstant at h
  dsimp only at h
  rw [hasConstant_eq_isSingleConstant] at h
  by_cases hsingle : (op.bound lower).1.isSingleConstant
  · -- a constant bound is left alone
    rw [if_pos hsingle] at h
    cases h
    exact ⟨by simp [foldedBound, hsingle], rfl, rfl, rfl, fun h => ⟨h, rfl⟩⟩
  · rw [if_neg hsingle] at h
    obtain ⟨result, hresult, h⟩ := Option.bind_eq_some.mp h
    have hres : (op.bound lower).1.results ≠ [] := fun hnil => by
      rw [foldLowerOrUpperBound_eq_none hnil] at hresult
      cases hresult
    rw [foldLowerOrUpperBound_eq hres] at hresult
    by_cases hrefs : (op.bound lower).1.referencesConstants ((op.bound lower).2.map constantOf)
    · -- every referenced operand has a constant: the bound is folded
      rw [if_pos hrefs] at hresult
      obtain ⟨value, hvalue⟩ := exists_maxOrMin lower
        ((op.bound lower).2.map fun v => (constantOf v).getD 0) hres
      rw [hvalue, Option.some_bind] at hresult
      obtain ⟨op'', hset, rfl⟩ := Option.map_eq_some'.mp hresult
      cases h
      obtain ⟨hbound, hother, hstep, hbody⟩ := setConstantBound_bound hset
      refine ⟨?_, hother, hstep, hbody, fun h => Bool.noConfusion h⟩
      simp only [foldedBound, hsingle, hrefs, hvalue, hbound, Bool.not_false, Bool.and_self,
        if_true, Option.map_some']
    · -- some referenced operand has no constant: nothing changes
      rw [if_neg hrefs] at hresult
      cases hresult
      cases h
      exact ⟨by simp [foldedBound, hrefs], rfl, rfl, rfl, fun h => ⟨h, rfl⟩⟩

/-- Folding one bound passes its assertions when the bound map has a result. -/
theorem foldLowerOrUpperBound_isSome {lower : Bool} {op : AffineForOp}
    (hres : (op.bound lower).1.results ≠ []) :
    (foldLowerOrUpperBound constantOf op lower).isSome := by
  rw [foldLowerOrUpperBound_eq hres]
  split
  · obtain ⟨value, hvalue⟩ := exists_maxOrMin lower
      ((op.bound lower).2.map fun v => (constantOf v).getD 0) hres
    rw [hvalue, Option.some_bind]
    cases lower <;>
      simp [AffineForOp.setConstantLowerBound_eq, AffineForOp.setConstantUpperBound_eq]
  · rfl

/-- One bound's turn passes its assertions when the bound map has a result. -/
theorem foldIfNotConstant_isSome {lower folded : Bool} {op : AffineForOp}
    (hres : (op.bound lower).1.results ≠ []) :
    (foldIfNotConstant constantOf lower (folded, op)).isSome := by
  unfold foldIfNotConstant
  dsimp only
  rw [hasConstant_eq_isSingleConstant]
  split
  · rfl
  · obtain ⟨result, hresult⟩ := Option.isSome_iff_exists.mp (foldLowerOrUpperBound_isSome hres)
    rw [hresult]
    cases result <;> rfl

/-- `AffineForLoopBoundFolder` folds each bound as `foldedBound` says, the upper after the lower
bound's rewrite, keeps step and body, and passes its assertions when both maps have a result. -/
theorem matchAndRewrite_folds_bounds (constantOf : Value → Option Int) (forOp : AffineForOp) :
    (∀ r, matchAndRewrite constantOf forOp = some r →
      foldedBound true constantOf forOp.lowerBoundMap forOp.getLowerBoundOperands =
          some ((r.getD forOp).lowerBoundMap, (r.getD forOp).getLowerBoundOperands) ∧
        foldedBound false constantOf forOp.upperBoundMap forOp.getUpperBoundOperands =
          some ((r.getD forOp).upperBoundMap, (r.getD forOp).getUpperBoundOperands) ∧
        (r.getD forOp).step = forOp.step ∧ (r.getD forOp).body = forOp.body) ∧
    (forOp.lowerBoundMap.results ≠ [] → forOp.upperBoundMap.results ≠ [] →
      (matchAndRewrite constantOf forOp).isSome) := by
  constructor
  · intro r h
    obtain ⟨⟨folded, op₂⟩, h₁₂, h⟩ := Option.bind_eq_some.mp h
    obtain ⟨⟨folded₁, op₁⟩, h₁, h₂⟩ := Option.bind_eq_some.mp h₁₂
    obtain ⟨hlow₁, hup₁, hstep₁, hbody₁, hflag₁⟩ := foldIfNotConstant_spec h₁
    obtain ⟨hup₂, hlow₂, hstep₂, hbody₂, hflag₂⟩ := foldIfNotConstant_spec h₂
    rw [Bool.not_true] at hup₁
    rw [Bool.not_false] at hlow₂
    -- with no flag set, neither turn rewrote the operation
    have hr : r.getD forOp = op₂ := by
      cases h
      cases folded with
      | true => rfl
      | false =>
        obtain ⟨hfolded₁, rfl⟩ := hflag₂ rfl
        exact (hflag₁ hfolded₁).2.symm
    rw [hr]
    rw [hup₁] at hup₂
    exact ⟨hlow₁.trans (congrArg some hlow₂.symm), hup₂, hstep₂.trans hstep₁, hbody₂.trans hbody₁⟩
  · intro hlow hup
    obtain ⟨⟨folded₁, op₁⟩, h₁⟩ := Option.isSome_iff_exists.mp
      (foldIfNotConstant_isSome hlow : (foldIfNotConstant constantOf true (false, forOp)).isSome)
    have hup₁ : (op₁.bound false).1.results ≠ [] := by
      have hother := (foldIfNotConstant_spec h₁).2.1
      rw [Bool.not_true] at hother
      rw [hother]
      exact hup
    obtain ⟨⟨folded, op₂⟩, h₂⟩ := Option.isSome_iff_exists.mp
      (foldIfNotConstant_isSome hup₁ : (foldIfNotConstant constantOf false (folded₁, op₁)).isSome)
    simp [matchAndRewrite, h₁, h₂]

/-- A bound the folder rewrites is set to a constant by the bound's setter, with no operands. -/
theorem foldLowerOrUpperBound_setter {lower : Bool} {op op' : AffineForOp}
    (h : foldLowerOrUpperBound constantOf op lower = some (some op')) :
    ∃ value, (if lower then AffineForOp.Setter.setLowerBound [] (AffineMap.getConstantMap value)
      else .setUpperBound [] (AffineMap.getConstantMap value)).apply op = some op' := by
  have hres : (op.bound lower).1.results ≠ [] := fun hnil => by
    rw [foldLowerOrUpperBound_eq_none hnil] at h
    cases h
  rw [foldLowerOrUpperBound_eq hres] at h
  split at h
  · obtain ⟨op'', hbind, hop⟩ := Option.map_eq_some'.mp h
    obtain ⟨value, -, hset⟩ := Option.bind_eq_some.mp hbind
    cases hop
    exact ⟨value, by cases lower <;> exact hset⟩
  · cases h

/-- One bound's turn runs at most one setter, which gives the bound a constant map and no
operands. -/
theorem foldIfNotConstant_setters {lower folded folded' : Bool} {op op' : AffineForOp}
    (h : foldIfNotConstant constantOf lower (folded, op) = some (folded', op')) :
    ∃ setters : List AffineForOp.Setter, (∀ setter ∈ setters, ∀ ir, setter.ValidIn ir) ∧
      AffineForOp.applySetters setters op = some op' := by
  unfold foldIfNotConstant at h
  dsimp only at h
  rw [hasConstant_eq_isSingleConstant] at h
  by_cases hsingle : (op.bound lower).1.isSingleConstant
  · rw [if_pos hsingle] at h
    cases h
    exact ⟨[], nofun, rfl⟩
  · rw [if_neg hsingle] at h
    obtain ⟨result, hresult, h⟩ := Option.bind_eq_some.mp h
    cases result with
    | none =>
      cases h
      exact ⟨[], nofun, rfl⟩
    | some forOp =>
      cases h
      obtain ⟨value, hset⟩ := foldLowerOrUpperBound_setter hresult
      refine ⟨[_], fun setter hs ir => ?_, by rw [AffineForOp.applySetters, hset]; rfl⟩
      rw [List.mem_singleton.mp hs]
      cases lower <;> rfl

/-- Every rewrite of the bound folder is a run of setters that give bounds constant maps and no
operands. -/
theorem matchAndRewrite_setters {op op' : AffineForOp}
    (h : matchAndRewrite constantOf op = some (some op')) :
    ∃ setters : List AffineForOp.Setter, (∀ setter ∈ setters, ∀ ir, setter.ValidIn ir) ∧
      AffineForOp.applySetters setters op = some op' := by
  obtain ⟨⟨folded, op₂⟩, h₁₂, h⟩ := Option.bind_eq_some.mp h
  obtain ⟨⟨folded₁, op₁⟩, h₁, h₂⟩ := Option.bind_eq_some.mp h₁₂
  obtain ⟨setters₁, hvalid₁, hrun₁⟩ := foldIfNotConstant_setters h₁
  obtain ⟨setters₂, hvalid₂, hrun₂⟩ := foldIfNotConstant_setters h₂
  have hop : op₂ = op' := by
    cases folded <;> cases h
    rfl
  refine ⟨setters₁ ++ setters₂, fun setter hs => ?_, ?_⟩
  · rcases List.mem_append.mp hs with hs | hs
    exacts [hvalid₁ setter hs, hvalid₂ setter hs]
  · rw [AffineForOp.applySetters_append, hrun₁, ← hop]
    exact hrun₂

/-- `affine.for %i = max ()[s0, s1] -> (s0, s1)()[%c3, %c5] to %n`, with `%c3` (value `0`) and
`%c5` (value `1`) constants and `%n` (value `2`) not. -/
def maxOfConstantsLoop : AffineForOp :=
  ⟨[0, 1, 2], ⟨0, 2, [.symbol 0, .symbol 1]⟩, AffineMap.getSymbolIdentityMap, 1, ⟨1, [true], true⟩⟩

/-- The constants of `maxOfConstantsLoop`'s operands. -/
def maxOfConstantsLoopConstants (v : Value) : Option Int :=
  [some 3, some 5].getD v none

/-- The folder turns the lower bound of `maxOfConstantsLoop` into the constant 5 and leaves its
upper bound, whose operand is not a constant. -/
theorem matchAndRewrite_folds_bounds_maxOfConstantsLoop :
    matchAndRewrite maxOfConstantsLoopConstants maxOfConstantsLoop =
        some (some { maxOfConstantsLoop with
          operands := [2]
          lowerBoundMap := AffineMap.getConstantMap 5 }) ∧
      foldedBound true maxOfConstantsLoopConstants maxOfConstantsLoop.lowerBoundMap
          maxOfConstantsLoop.getLowerBoundOperands = some (AffineMap.getConstantMap 5, []) ∧
      maxOfConstantsLoop.lowerBoundMap.results ≠ [] ∧
      maxOfConstantsLoop.upperBoundMap.results ≠ [] ∧
      (matchAndRewrite maxOfConstantsLoopConstants maxOfConstantsLoop).isSome :=
  ⟨rfl, ((matchAndRewrite_folds_bounds maxOfConstantsLoopConstants maxOfConstantsLoop).1 _ rfl).1,
    by decide, by decide,
    (matchAndRewrite_folds_bounds maxOfConstantsLoopConstants maxOfConstantsLoop).2 (by decide)
      (by decide)⟩

end AffineForLoopBoundFolder

namespace AffineForOp

/-- The loops the `affine.for` API makes in `ir`: built on valid bound operands, then changed by
setters with valid new operands and by the bound folder. -/
inductive Reachable (ir : IR) : AffineForOp → Prop
  | build {lbOperands ubOperands : List Value} {lbMap ubMap : AffineMap} {step : Int}
      {op : AffineForOp} : AffineForOp.build lbOperands lbMap ubOperands ubMap step = some op →
      verifyDimAndSymbolIdentifiers ir "affine.for" lbOperands lbMap.numDims = .ok () →
      verifyDimAndSymbolIdentifiers ir "affine.for" ubOperands ubMap.numDims = .ok () →
      Reachable ir op
  | setter {op op' : AffineForOp} {setter : Setter} : Reachable ir op → setter.ValidIn ir →
      setter.apply op = some op' → Reachable ir op'
  | fold {op op' : AffineForOp} (constantOf : Value → Option Int) : Reachable ir op →
      AffineForLoopBoundFolder.matchAndRewrite constantOf op = some (some op') → Reachable ir op'

/-- Every loop the API makes verifies and has a positive step: only the parser makes a loop of
step `0`. -/
theorem Reachable.verifies {ir : IR} {op : AffineForOp} (h : Reachable ir op) :
    op.verify ir = .ok () ∧ 0 < op.step := by
  induction h with
  | build hbuild hlb hub => exact build_verify hbuild hlb hub
  | setter _ hvalid happly ih => exact Setter.apply_verify happly hvalid ih.1 ih.2
  | fold constantOf _ hfold ih =>
    obtain ⟨setters, hvalid, hrun⟩ := AffineForLoopBoundFolder.matchAndRewrite_setters hfold
    exact applySetters_verify hrun (fun setter hs => hvalid setter hs ir) ih.1 ih.2

/-- `maxOfConstantsLoop`, built in `constantDivision`, whose values `0` to `2` are valid symbols,
and then folded. -/
theorem Reachable.verifies_maxOfConstantsLoop :
    ∃ op, AffineForLoopBoundFolder.matchAndRewrite
        AffineForLoopBoundFolder.maxOfConstantsLoopConstants
        AffineForLoopBoundFolder.maxOfConstantsLoop = some (some op) ∧
      Reachable constantDivision op ∧ op.verify constantDivision = .ok () ∧ 0 < op.step := by
  have hbuild : AffineForOp.build [0, 1] ⟨0, 2, [.symbol 0, .symbol 1]⟩ [2] AffineMap.getSymbolIdentityMap 1 =
      some AffineForLoopBoundFolder.maxOfConstantsLoop := rfl
  have h := Reachable.fold AffineForLoopBoundFolder.maxOfConstantsLoopConstants
    (Reachable.build hbuild rfl rfl : Reachable constantDivision _) rfl
  exact ⟨_, rfl, h, h.verifies⟩

end AffineForOp

end Mlir
