import MlirCore.IR.Value

/-!
# Valid dims, valid symbols and the `affine.apply` verifier

`isValidDim` and `isValidSymbol` classify a value by its definition, recursing through the
operands of an `affine.apply`. Both are `IR.fold`s, so they terminate on every value, and
`isValidDim_eq` and `isValidSymbol_eq` give back the source's one-level definitions.
`AffineApplyOp::verify` is modelled with its diagnostics; its first check, that a `map`
attribute exists, cannot fail here, since an `affine.apply`'s map is part of its definition.
-/

namespace Mlir

/-- `emitOpError`: the message prefixed with the operation name. -/
def emitOpError (name message : String) : Except String Unit :=
  .error ("'" ++ name ++ "' op " ++ message)

/-- An error stops the rest of a verifier. -/
theorem emitOpError_bind {name message : String} {f : Unit → Except String Unit} :
    (emitOpError name message >>= f) = emitOpError name message := rfl

/-- A check passes exactly when its condition fails and the rest of the verifier passes. -/
theorem ite_emitOpError_eq_ok {c : Prop} [Decidable c] {name message : String}
    {y : Except String Unit} :
    (if c then emitOpError name message else y) = .ok () ↔ ¬c ∧ y = .ok () := by
  by_cases hc : c <;> simp [hc, emitOpError]

/-- Two verifier steps in sequence pass exactly when both pass. -/
theorem except_bind_eq_ok {x y : Except String Unit} :
    (x >>= fun _ => y) = .ok () ↔ x = .ok () ∧ y = .ok () := by
  cases x <;> simp [bind, Except.bind]

/-- `isTopLevelSymbol`: the value's block, or its defining operation, is in a function body. -/
def isTopLevelSymbol (ir : IR) (v : Value) : Bool := (ir.info v).inFunctionRegion

/-- One level of `isValidDim`, given the answers for an `affine.apply`'s operands. -/
def isValidDimAt (ir : IR) (v : Value) (applied : Option (AffineMap × List Bool)) : Bool :=
  (ir.info v).isIndex &&
    match (ir.info v).definingOp with
    | some op =>
      (ir.info v).inFunctionRegion || op == .constant ||
        match op, applied with
        | .affineApply .., some (_, operandsValid) => operandsValid.all id
        | .dim memref, _ => isTopLevelSymbol ir memref
        | _, _ => false
    | none => true

/-- One level of `isValidSymbol`, given the answers for an `affine.apply`'s operands. -/
def isValidSymbolAt (ir : IR) (v : Value) (applied : Option (AffineMap × List Bool)) : Bool :=
  (ir.info v).isIndex &&
    match (ir.info v).definingOp with
    | some op =>
      (ir.info v).inFunctionRegion || op == .constant ||
        match op, applied with
        | .affineApply .., some (_, operandsValid) => operandsValid.all id
        | .dim memref, _ => isTopLevelSymbol ir memref
        | _, _ => false
    | none => isTopLevelSymbol ir v

/-- `isValidDim`: a valid symbol, a block argument (loop induction variables included), or an
`affine.apply` of valid dims. -/
def isValidDim (ir : IR) : Value → Bool := ir.fold (isValidDimAt ir)

/-- `isValidSymbol`: top-level, constant, a top-level `dim`, or an `affine.apply` of valid
symbols. -/
def isValidSymbol (ir : IR) : Value → Bool := ir.fold (isValidSymbolAt ir)

/-- The source's definition of `isValidDim`, one level deep. -/
theorem isValidDim_eq (ir : IR) (v : Value) :
    isValidDim ir v = isValidDimAt ir v
      ((ir.affineApplyOf v).map fun p => (p.1, p.2.map (isValidDim ir))) :=
  IR.fold_eq ir _ v

/-- The source's definition of `isValidSymbol`, one level deep. -/
theorem isValidSymbol_eq (ir : IR) (v : Value) :
    isValidSymbol ir v = isValidSymbolAt ir v
      ((ir.affineApplyOf v).map fun p => (p.1, p.2.map (isValidSymbol ir))) :=
  IR.fold_eq ir _ v

/-- A valid symbol can always stand in a dim position. -/
theorem isValidDim_of_isValidSymbol (ir : IR) (v : Value) (h : isValidSymbol ir v) :
    isValidDim ir v := by
  induction v using Nat.strong_induction_on with
  | _ v ih =>
    rw [isValidSymbol_eq] at h
    rw [isValidDim_eq]
    cases happ : ir.affineApplyOf v with
    | none =>
      rw [happ] at h
      unfold isValidSymbolAt at h
      unfold isValidDimAt
      split <;> simp_all
    | some p =>
      obtain ⟨map, operands⟩ := p
      rw [happ] at h
      have hdef := IR.affineApplyOf_eq_some.mp happ
      simp only [isValidSymbolAt, hdef, Option.map_some', List.all_map, Bool.and_eq_true,
        Bool.or_eq_true, List.all_eq_true, Function.comp_apply, id_eq] at h
      simp only [isValidDimAt, hdef, Option.map_some', List.all_map, Bool.and_eq_true,
        Bool.or_eq_true, List.all_eq_true, Function.comp_apply, id_eq]
      refine ⟨h.1, h.2.imp_right fun hops x hx => ?_⟩
      obtain ⟨u, hu, rfl⟩ := List.mem_map.mp hx
      exact ih u (IR.lt_of_mem_affineApplyOf happ hu) (hops _ (List.mem_map_of_mem _ hu))

/-- Every valid symbol of a function is a valid dim: symbols are a subclass of dims, through
`affine.apply` chains of any depth. -/
theorem isValidSymbol_subset_isValidDim (ir : IR) :
    ∀ v, isValidSymbol ir v = true → isValidDim ir v = true :=
  isValidDim_of_isValidSymbol ir

/-- A function argument `%N` (value `0`) and, inside a loop, `%a = affine.apply ()[s0] -> (s0)
()[%N]` (value `1`) and `%b = affine.apply ()[s0] -> (s0) ()[%a]` (value `2`). -/
def applyChain : IR :=
  ⟨[⟨true, true, none⟩, ⟨true, false, some (.affineApply ⟨0, 1, [.symbol 0]⟩ [0])⟩,
    ⟨true, false, some (.affineApply ⟨0, 1, [.symbol 0]⟩ [1])⟩], by decide⟩

/-- `%b` is a valid symbol two `affine.apply`s away from the function argument, so it is a
valid dim. -/
theorem isValidSymbol_subset_isValidDim_applyChain :
    isValidSymbol applyChain 2 = true ∧ isValidDim applyChain 2 = true :=
  ⟨by decide, isValidSymbol_subset_isValidDim applyChain 2 (by decide)⟩

/-- `verifyDimAndSymbolIdentifiers`: operands before `numDims` must be valid dims, the rest
valid symbols; the first failure is reported. -/
def verifyDimAndSymbolIdentifiers (ir : IR) (opName : String) (operands : List Value)
    (numDims : Nat) : Except String Unit :=
  (operands.enum).forM fun (opIt, operand) =>
    if opIt < numDims then
      if !isValidDim ir operand then emitOpError opName "operand cannot be used as a dimension id"
      else pure ()
    else if !isValidSymbol ir operand then emitOpError opName "operand cannot be used as a symbol"
    else pure ()

/-- The identifier loop from operand position `i` on. -/
private theorem forM_enumFrom_eq_ok (ir : IR) (opName : String) (numDims : Nat) :
    ∀ (i : Nat) (l : List Value), (l.enumFrom i).forM (fun (p : Nat × Value) =>
      if p.1 < numDims then
        if !isValidDim ir p.2 then emitOpError opName "operand cannot be used as a dimension id"
        else pure ()
      else if !isValidSymbol ir p.2 then emitOpError opName "operand cannot be used as a symbol"
      else pure ()) = .ok () ↔
      (∀ v ∈ l.take (numDims - i), isValidDim ir v) ∧ ∀ v ∈ l.drop (numDims - i), isValidSymbol ir v := by
  intro i l
  induction l generalizing i with
  | nil => simp [pure, Except.pure]
  | cons t rest ih =>
    rw [List.enumFrom_cons, List.forM, except_bind_eq_ok, ih (i + 1)]
    by_cases hi : i < numDims
    · obtain ⟨k, hk⟩ : ∃ k, numDims - i = k + 1 := ⟨numDims - i - 1, by omega⟩
      have hk' : numDims - (i + 1) = k := by omega
      simp [hi, hk, hk', emitOpError, pure, Except.pure, and_assoc]
    · have hk : numDims - i = 0 := by omega
      have hk' : numDims - (i + 1) = 0 := by omega
      simp [hi, hk, hk', emitOpError, pure, Except.pure]

/-- The identifiers pass exactly when the dim operands are valid dims and the others valid
symbols. -/
theorem verifyDimAndSymbolIdentifiers_eq_ok {ir : IR} {opName : String} {operands : List Value}
    {numDims : Nat} :
    verifyDimAndSymbolIdentifiers ir opName operands numDims = .ok () ↔
      (∀ v ∈ operands.take numDims, isValidDim ir v) ∧ ∀ v ∈ operands.drop numDims, isValidSymbol ir v := by
  rw [verifyDimAndSymbolIdentifiers, List.enum, forM_enumFrom_eq_ok, Nat.sub_zero]

/-- A valid dim has `index` type. -/
theorem isIndex_of_isValidDim {ir : IR} {v : Value} (h : isValidDim ir v) : (ir.info v).isIndex := by
  rw [isValidDim_eq, isValidDimAt, Bool.and_eq_true] at h
  exact h.1

/-- A valid symbol has `index` type. -/
theorem isIndex_of_isValidSymbol {ir : IR} {v : Value} (h : isValidSymbol ir v) :
    (ir.info v).isIndex := by
  rw [isValidSymbol_eq, isValidSymbolAt, Bool.and_eq_true] at h
  exact h.1

/-- Every operand the identifier check accepts has `index` type. -/
theorem isIndex_of_verifyDimAndSymbolIdentifiers {ir : IR} {opName : String}
    {operands : List Value} {numDims : Nat}
    (h : verifyDimAndSymbolIdentifiers ir opName operands numDims = .ok ()) :
    ∀ v ∈ operands, (ir.info v).isIndex := by
  obtain ⟨hdims, hsymbols⟩ := verifyDimAndSymbolIdentifiers_eq_ok.mp h
  intro v hv
  rw [← List.take_append_drop numDims operands, List.mem_append] at hv
  rcases hv with hv | hv
  · exact isIndex_of_isValidDim (hdims v hv)
  · exact isIndex_of_isValidSymbol (hsymbols v hv)

/-- `AffineApplyOp::verify` for an apply of `map` to `operands` whose result has index type
when `resultIsIndex`. -/
def verifyAffineApply (ir : IR) (map : AffineMap) (operands : List Value) (resultIsIndex : Bool) :
    Except String Unit := do
  if operands.length ≠ map.numDims + map.numSymbols then
    emitOpError "affine.apply" "operand count and affine map dimension and symbol count must match"
  if !operands.all fun operand => (ir.info operand).isIndex then
    emitOpError "affine.apply" "operands must be of type 'index'"
  if !resultIsIndex then
    emitOpError "affine.apply" "result must be of type 'index'"
  verifyDimAndSymbolIdentifiers ir "affine.apply" operands map.numDims
  if map.results.length ≠ 1 then
    emitOpError "affine.apply" "mapping must produce one value"

/-- What the verifier checks, all at once. -/
theorem verifyAffineApply_eq_ok {ir : IR} {map : AffineMap} {operands : List Value}
    {resultIsIndex : Bool} :
    verifyAffineApply ir map operands resultIsIndex = .ok () ↔
      operands.length = map.numInputs ∧ (∀ v ∈ operands, (ir.info v).isIndex) ∧ resultIsIndex ∧
        ((∀ v ∈ operands.take map.numDims, isValidDim ir v) ∧
          ∀ v ∈ operands.drop map.numDims, isValidSymbol ir v) ∧ map.results.length = 1 := by
  simp only [verifyAffineApply, emitOpError_bind, ite_emitOpError_eq_ok, except_bind_eq_ok,
    verifyDimAndSymbolIdentifiers_eq_ok]
  simp [AffineMap.numInputs, pure, Except.pure]

/-- Every `affine.apply` of the function passes its verifier. -/
def IR.affineAppliesVerified (ir : IR) : Prop :=
  ∀ v map operands, ir.affineApplyOf v = some (map, operands) →
    verifyAffineApply ir map operands (ir.info v).isIndex = .ok ()

/-- The verifier is run on each of the function's values. -/
instance (ir : IR) : Decidable ir.affineAppliesVerified :=
  decidable_of_iff ((List.range ir.values.length).all fun v => match ir.affineApplyOf v with
      | some (map, operands) => (verifyAffineApply ir map operands (ir.info v).isIndex).toBool
      | none => true) <| by
    simp only [List.all_eq_true, List.mem_range, IR.affineAppliesVerified]
    constructor
    · intro h v map operands hv
      have := h v (IR.lt_length_of_affineApplyOf hv)
      rw [hv] at this
      cases hver : verifyAffineApply ir map operands (ir.info v).isIndex with
      | ok u => rfl
      | error e => simp [hver, Except.toBool] at this
    · intro h v _
      cases hv : ir.affineApplyOf v with
      | none => rfl
      | some p => simp [h v p.1 p.2 hv, Except.toBool]

/-- Every `affine.apply` of the function carries a well-formed map, as the parser builds
them. -/
def IR.affineApplyMapsWellFormed (ir : IR) : Prop :=
  ∀ v map operands, ir.affineApplyOf v = some (map, operands) → map.isWellFormed

/-- Checked on each of the function's values. -/
instance (ir : IR) : Decidable ir.affineApplyMapsWellFormed :=
  decidable_of_iff ((List.range ir.values.length).all fun v => match ir.affineApplyOf v with
      | some (map, _) => map.isWellFormed
      | none => true) <| by
    simp only [List.all_eq_true, List.mem_range, IR.affineApplyMapsWellFormed]
    constructor
    · intro h v map operands hv
      simpa [hv] using h v (IR.lt_length_of_affineApplyOf hv)
    · intro h v _
      cases hv : ir.affineApplyOf v with
      | none => rfl
      | some p =>
        obtain ⟨map, operands⟩ := p
        exact h v map operands hv

/-- An operand of a verified `affine.apply` can stand in a dim position. -/
theorem isValidDim_of_mem_operands {ir : IR} {map : AffineMap} {operands : List Value}
    {resultIsIndex : Bool} (h : verifyAffineApply ir map operands resultIsIndex = .ok ())
    {v : Value} (hv : v ∈ operands) : isValidDim ir v := by
  obtain ⟨-, -, -, ⟨hdims, hsyms⟩, -⟩ := verifyAffineApply_eq_ok.mp h
  rw [← List.take_append_drop map.numDims operands, List.mem_append] at hv
  exact hv.elim (hdims v) fun hv => isValidDim_of_isValidSymbol ir v (hsyms v hv)

end Mlir
