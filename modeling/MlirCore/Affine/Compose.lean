import MlirCore.Affine.Normalizer

/-!
# Composing `affine.apply` chains

`composeAffineMapAndOperands` runs the normalizer and canonicalizes what it built;
`makeComposedAffineApply` and the pattern `SimplifyAffineApply` build an `affine.apply` from the
result, and `fullyComposeAffineMapAndOperands` composes again, within an explicit iteration bound,
while an operand is an `affine.apply` result. A pass reaches one level down the operands' chains,
so the loop ends within the height of the longest one, and a rewritten `affine.apply` verifies
when the one it replaces does. Composition can change values, though: the normalizer numbers a
nested `affine.apply`'s symbols before the outer map's, while `AffineMap::compose` puts them after.
-/

namespace Mlir

/-- `composeAffineMapAndOperands`: normalize, then canonicalize the normalizer's map and
operands. -/
def composeAffineMapAndOperands (ir : IR) (map : AffineMap) (operands : List Value) :
    Option (AffineMap × List Value) := do
  let normalizer ← AffineApplyNormalizer.new ir map operands
  canonicalizeMapAndOperands ir normalizer.affineMap normalizer.getOperands

/-- How a run of `fullyComposeAffineMapAndOperands`' loop ends when its iterations are
bounded. -/
inductive FullyComposeOutcome where
  | composed (map : AffineMap) (operands : List Value)
  | nullDereference
  | outOfFuel
  deriving Repr, DecidableEq

/-- `fullyComposeAffineMapAndOperands` with at most `fuel` iterations: compose while some
operand is an `affine.apply` result. -/
def fullyComposeAffineMapAndOperands (ir : IR) (fuel : Nat) (map : AffineMap)
    (operands : List Value) : FullyComposeOutcome :=
  if operands.any fun v => (ir.affineApplyOf v).isSome then
    match fuel with
    | 0 => .outOfFuel
    | fuel + 1 =>
      match composeAffineMapAndOperands ir map operands with
      | some (map, operands) => fullyComposeAffineMapAndOperands ir fuel map operands
      | none => .nullDereference
  else .composed map operands

/-- `makeComposedAffineApply`: the map and operands of the `affine.apply` it builds. -/
def makeComposedAffineApply (ir : IR) (map : AffineMap) (operands : List Value) :
    Option (AffineMap × List Value) :=
  composeAffineMapAndOperands ir map operands

/-- What a rewrite pattern does with the operation it is given. -/
inductive RewriteResult where
  | matchFailure
  | replaced (map : AffineMap) (operands : List Value)
  deriving Repr, DecidableEq

/-- `SimplifyAffineApply::matchAndRewrite`: the map and operands of the replacement, unless
composition leaves the map unchanged; the replacement has one `index` result per map result. -/
def simplifyAffineApply (ir : IR) (map : AffineMap) (operands : List Value) :
    Option RewriteResult := do
  let (newMap, newOperands) ← composeAffineMapAndOperands ir map operands
  if newMap = map then pure .matchFailure else pure (.replaced newMap newOperands)

/-- The height of the longest `affine.apply` chain ending at one of the operands. -/
def maxApplyHeight (ir : IR) (operands : List Value) : Nat :=
  (operands.map ir.applyHeight).foldr max 0

/-- A composition on one operand per input keeps that and the result count; its dim operands are
normalizer dims, its symbol operands normalizer symbols or dims that are valid symbols. -/
theorem composeAffineMapAndOperands_spec {ir : IR} {map map' : AffineMap}
    {operands operands' : List Value} (hlen : operands.length = map.numInputs)
    (h : composeAffineMapAndOperands ir map operands = some (map', operands')) :
    ∃ N, AffineApplyNormalizer.new ir map operands = some N ∧
      operands'.length = map'.numInputs ∧ map'.results.length = map.results.length ∧
      (∀ v ∈ operands'.take map'.numDims, v ∈ N.reorderedDims) ∧
      ∀ v ∈ operands'.drop map'.numDims, v ∈ N.concatenatedSymbols ∨
        (v ∈ N.reorderedDims ∧ isValidSymbol ir v) := by
  simp only [composeAffineMapAndOperands, Option.bind_eq_bind, Option.bind_eq_some] at h
  obtain ⟨N, hN, h⟩ := h
  obtain ⟨hnd, hns, hres⟩ := AffineApplyNormalizer.build_spec hlen hN
  have hlen' : N.getOperands.length = N.affineMap.numInputs := by
    simp [AffineApplyNormalizer.getOperands, AffineMap.numInputs, hnd, hns]
  obtain ⟨m, ops, hc, hres', hcan, htake, hdrop, -⟩ :=
    canonicalizeMapAndOperands_spec ir N.affineMap N.getOperands hlen'
  rw [hc] at h
  cases h
  have htake' : N.getOperands.take N.affineMap.numDims = N.reorderedDims := by
    rw [AffineApplyNormalizer.getOperands, hnd, List.take_left' rfl]
  have hdrop' : N.getOperands.drop N.affineMap.numDims = N.concatenatedSymbols := by
    rw [AffineApplyNormalizer.getOperands, hnd, List.drop_left' rfl]
  refine ⟨N, hN, hcan.length_eq, hres'.trans hres, fun v hv => htake' ▸ (htake v hv).1,
    fun v hv => ?_⟩
  rcases hdrop v hv with hv | ⟨hv, hs⟩
  · exact .inl (hdrop' ▸ hv)
  · exact .inr ⟨htake' ▸ hv, hs⟩

/-- A loop induction variable `%i` (value `0`), function arguments `%N` and `%M` (values `1` and
`2`), and `%a = affine.apply (d0)[s0] -> (d0 + s0) (%i)[%N]` (value `3`) in the loop body. -/
def applyInLoop : IR :=
  ⟨[⟨true, false, none⟩, ⟨true, true, none⟩, ⟨true, true, none⟩,
    ⟨true, false, some (.affineApply ⟨1, 1, [.binary .add (.dim 0) (.symbol 0)]⟩ [0, 1])⟩],
    by decide⟩

/-- `(d0)[s0] -> (d0 + s0 * 2)`. -/
def dimPlusTwiceSymbol : AffineMap :=
  ⟨1, 1, [.binary .add (.dim 0) (.binary .mul (.symbol 0) (.constant 2))]⟩

/-- `%N` is `1`, every other leaf `0`. -/
def argumentNIsOne (v : Value) : Int := if v = 1 then 1 else 0

/-- Composing `(d0)[s0] -> (d0 + s0 * 2) (%a)[%M]` numbers `%a`'s symbol `%N` before `%M` but
reads its own symbol first: with `%N = 1` the value goes from `1` to `2`. -/
theorem composeAffineMapAndOperands_swaps_symbols :
    applyInLoop.affineAppliesVerified ∧
      verifyAffineApply applyInLoop dimPlusTwiceSymbol [3, 2] true = .ok () ∧
      dimPlusTwiceSymbol.isWellFormed ∧
      composeAffineMapAndOperands applyInLoop dimPlusTwiceSymbol [3, 2] =
        some (⟨1, 2, [.binary .add (.binary .add (.dim 0) (.symbol 1))
          (.binary .mul (.symbol 0) (.constant 2))]⟩, [0, 1, 2]) ∧
      (⟨1, 2, [.binary .add (.binary .add (.dim 0) (.symbol 1))
          (.binary .mul (.symbol 0) (.constant 2))]⟩ : AffineMap).evalOn
          ([0, 1, 2].map (applyInLoop.valueOf argumentNIsOne)) = [2] ∧
      dimPlusTwiceSymbol.evalOn ([3, 2].map (applyInLoop.valueOf argumentNIsOne)) = [1] :=
  ⟨by decide, rfl, by decide, by decide, by decide, by decide⟩

/-- Every operand after one composition is an original operand that no `affine.apply` defines,
or an operand of an `affine.apply` that defines an original operand. -/
theorem composeAffineMapAndOperands_mem {ir : IR} {map map' : AffineMap}
    {operands operands' : List Value} (hlen : operands.length = map.numInputs)
    (h : composeAffineMapAndOperands ir map operands = some (map', operands')) :
    ∀ v ∈ operands', (v ∈ operands ∧ ir.affineApplyOf v = none) ∨
      ∃ t ∈ operands, ∃ m ops, ir.affineApplyOf t = some (m, ops) ∧ v ∈ ops := by
  obtain ⟨N, hN, -, -, htake, hdrop⟩ := composeAffineMapAndOperands_spec hlen h
  have hmem := AffineApplyNormalizer.new_mem hN
  intro v hv
  rw [← List.take_append_drop map'.numDims operands', List.mem_append] at hv
  rcases hv with hv | hv
  · exact hmem v (List.mem_append_left _ (htake v hv))
  · rcases hdrop v hv with hv | ⟨hv, -⟩
    · exact hmem v (List.mem_append_right _ hv)
    · exact hmem v (List.mem_append_left _ hv)

/-- An operand sits at most as high as the highest one. -/
theorem applyHeight_le_maxApplyHeight {ir : IR} {operands : List Value} {v : Value}
    (hv : v ∈ operands) : ir.applyHeight v ≤ maxApplyHeight ir operands :=
  IR.le_foldr_max_of_mem (List.mem_map_of_mem _ hv)

/-- Operands all below a positive bound have their maximum below it. -/
theorem maxApplyHeight_lt {ir : IR} {operands : List Value} {bound : Nat} (hbound : 0 < bound)
    (h : ∀ v ∈ operands, ir.applyHeight v < bound) : maxApplyHeight ir operands < bound := by
  induction operands with
  | nil => exact hbound
  | cons v rest ih =>
    simp only [maxApplyHeight, List.map_cons, List.foldr_cons] at ih ⊢
    exact Nat.max_lt.mpr ⟨h v (List.mem_cons_self _ _),
      ih fun w hw => h w (List.mem_cons_of_mem _ hw)⟩

/-- A composition over operands of which one is an `affine.apply` result lowers the highest
chain. -/
theorem composeAffineMapAndOperands_maxApplyHeight_lt {ir : IR} {map map' : AffineMap}
    {operands operands' : List Value} (hlen : operands.length = map.numInputs)
    (h : composeAffineMapAndOperands ir map operands = some (map', operands'))
    (hany : operands.any fun v => (ir.affineApplyOf v).isSome) :
    maxApplyHeight ir operands' < maxApplyHeight ir operands := by
  obtain ⟨t, ht, happ⟩ := List.any_eq_true.mp hany
  obtain ⟨⟨m, ops⟩, hp⟩ := Option.isSome_iff_exists.mp happ
  have hpos := Nat.lt_of_lt_of_le (IR.applyHeight_pos hp) (applyHeight_le_maxApplyHeight ht)
  refine maxApplyHeight_lt hpos fun v hv => ?_
  rcases composeAffineMapAndOperands_mem hlen h v hv with ⟨-, hnone⟩ | ⟨u, hu, m, ops, hu', hv⟩
  · rw [IR.applyHeight_eq_zero hnone]
    exact hpos
  · exact Nat.lt_of_lt_of_le (IR.applyHeight_lt_of_mem hu' hv) (applyHeight_le_maxApplyHeight hu)

/-- The loop exits once no operand is an `affine.apply` result. -/
theorem fullyComposeAffineMapAndOperands_of_not_any {ir : IR} {fuel : Nat} {map : AffineMap}
    {operands : List Value} (h : ¬(operands.any fun v => (ir.affineApplyOf v).isSome)) :
    fullyComposeAffineMapAndOperands ir fuel map operands = .composed map operands := by
  unfold fullyComposeAffineMapAndOperands
  rw [if_neg h]

/-- Another iteration composes once more. -/
theorem fullyComposeAffineMapAndOperands_succ {ir : IR} {fuel : Nat} {map : AffineMap}
    {operands : List Value} (h : operands.any fun v => (ir.affineApplyOf v).isSome) :
    fullyComposeAffineMapAndOperands ir (fuel + 1) map operands =
      match composeAffineMapAndOperands ir map operands with
      | some (map, operands) => fullyComposeAffineMapAndOperands ir fuel map operands
      | none => .nullDereference := by
  rw [fullyComposeAffineMapAndOperands.eq_def, if_pos h]

/-- On a verified `affine.apply` of a function whose `affine.apply`s are verified, composition
gives a map and operands that pass the verifier for an `index` result. -/
theorem composeAffineMapAndOperands_verified {ir : IR} (hir : ir.affineAppliesVerified)
    {map map' : AffineMap} {operands operands' : List Value} {resultIsIndex : Bool}
    (hver : verifyAffineApply ir map operands resultIsIndex = .ok ())
    (h : composeAffineMapAndOperands ir map operands = some (map', operands')) :
    verifyAffineApply ir map' operands' true = .ok () := by
  obtain ⟨hlen, -, -, -, hres⟩ := verifyAffineApply_eq_ok.mp hver
  obtain ⟨N, hN, hlen', hres', htake, hdrop⟩ := composeAffineMapAndOperands_spec hlen h
  obtain ⟨hdims, hsyms⟩ :=
    AffineApplyNormalizer.build_classes hir kMaxAffineApplyDepth hver hN
  have hdrop' : ∀ v ∈ operands'.drop map'.numDims, isValidSymbol ir v ∧ (ir.info v).isIndex :=
    fun v hv => (hdrop v hv).elim (hsyms v) fun ⟨hv, hs⟩ => ⟨hs, (hdims v hv).2⟩
  refine verifyAffineApply_eq_ok.mpr ⟨hlen', fun v hv => ?_, rfl,
    ⟨fun v hv => (hdims v (htake v hv)).1, fun v hv => (hdrop' v hv).1⟩, hres'.trans hres⟩
  rw [← List.take_append_drop map'.numDims operands', List.mem_append] at hv
  exact hv.elim (fun hv => (hdims v (htake v hv)).2) fun hv => (hdrop' v hv).2

/-- `SimplifyAffineApply` keeps `affine.apply` verified: in a function whose `affine.apply`s are
verified, the replacement of a verified `affine.apply` passes the verifier too. -/
theorem simplifyAffineApply_replacement_verified (ir : IR) (hir : ir.affineAppliesVerified)
    (map : AffineMap) (operands : List Value) (resultIsIndex : Bool)
    (hver : verifyAffineApply ir map operands resultIsIndex = .ok ())
    (newMap : AffineMap) (newOperands : List Value)
    (h : simplifyAffineApply ir map operands = some (.replaced newMap newOperands)) :
    verifyAffineApply ir newMap newOperands true = .ok () := by
  simp only [simplifyAffineApply, Option.bind_eq_bind, Option.bind_eq_some] at h
  obtain ⟨⟨m, ops⟩, hc, h⟩ := h
  split at h
  · cases h
  · cases h
    exact composeAffineMapAndOperands_verified hir hver hc

/-- `SimplifyAffineApply` on `affine.apply (d0)[s0] -> (d0 + s0 * 2) (%a)[%M]` in
`applyInLoop`. -/
theorem simplifyAffineApply_replacement_verified_applyInLoop :
    (applyInLoop.affineAppliesVerified ∧
      verifyAffineApply applyInLoop dimPlusTwiceSymbol [3, 2] true = .ok () ∧
      simplifyAffineApply applyInLoop dimPlusTwiceSymbol [3, 2] =
        some (.replaced ⟨1, 2, [.binary .add (.binary .add (.dim 0) (.symbol 1))
          (.binary .mul (.symbol 0) (.constant 2))]⟩ [0, 1, 2])) ∧
      verifyAffineApply applyInLoop ⟨1, 2, [.binary .add (.binary .add (.dim 0) (.symbol 1))
        (.binary .mul (.symbol 0) (.constant 2))]⟩ [0, 1, 2] true = .ok () :=
  ⟨⟨by decide, rfl, by decide⟩, simplifyAffineApply_replacement_verified applyInLoop (by decide)
    dimPlusTwiceSymbol [3, 2] true rfl _ _ (by decide)⟩

end Mlir
