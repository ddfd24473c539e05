import MlirCore.Affine.Validity

/-!
# Folding `affine.apply`

`AffineApplyOp::fold` folds an `affine.apply` whose single result is a bare dim or symbol to the
operand at that position; otherwise it constant-folds the map on the operands' attributes.
`AffineMap::constantFold` is not in this repository; it is modelled from the spec over unbounded
integers and fails only on an operand without an attribute. Nothing in the folder looks at
divisors, so a division by zero is folded like any other
(`AffineApplyOp.fold_ignores_zero_divisor`).
-/

namespace Mlir

/-- An `OpFoldResult`: an existing value, or a constant attribute holding an integer. -/
inductive OpFoldResult where
  | value (v : Value)
  | attribute (value : Int)
  deriving Repr, DecidableEq

namespace AffineExpr

/-- Modelled from the spec: constant folding of one result on the operands' attributes, dim `i`
reading operand `i` and symbol `j` operand `numDims + j`; a null attribute fails the fold. -/
def constantFold (numDims : Nat) (operandConstants : List (Option Int)) : AffineExpr → Option Int
  | dim i => operandConstants.getD i none
  | symbol j => operandConstants.getD (numDims + j) none
  | constant c => some c
  | binary k lhs rhs => do
    let lhs ← lhs.constantFold numDims operandConstants
    let rhs ← rhs.constantFold numDims operandConstants
    pure (k.apply lhs rhs)

end AffineExpr

/-- Modelled from the spec: `AffineMap::constantFold`, every result folded; it fails when one
does. -/
def AffineMap.constantFold (m : AffineMap) (operandConstants : List (Option Int)) :
    Option (List Int) :=
  m.results.mapM (AffineExpr.constantFold m.numDims operandConstants)

/-- `AffineApplyOp::fold`: a bare dim or symbol result folds to its operand (to nothing past the
operands' end, which a verified operation never has); any other result is constant-folded. -/
def AffineApplyOp.fold (map : AffineMap) (operands : List Value)
    (operandConstants : List (Option Int)) : Option OpFoldResult :=
  match map.results.head? with
  | some (.dim position) => operands[position]?.map .value
  | some (.symbol position) => operands[map.numDims + position]?.map .value
  | _ => do
    let result ← map.constantFold operandConstants
    result.head?.map .attribute

/-- The constant attributes agree with the values `ρ` gives the operands: every non-null
attribute is the value of its operand. -/
def AttributesMatch (operands : List Value) (operandConstants : List (Option Int))
    (ρ : Value → Int) : Prop :=
  ∀ (i : Nat) (c : Int), operandConstants[i]? = some (some c) → operands[i]?.map ρ = some c

/-- Two constants, `%c7 = constant 7 : index` (value `0`) and `%c0 = constant 0 : index`
(value `1`), and `%r = affine.apply (d0)[s0] -> (d0 floordiv s0) (%c7)[%c0]` (value `2`). -/
def constantDivision : IR :=
  ⟨[⟨true, false, some .constant⟩, ⟨true, false, some .constant⟩,
    ⟨true, false, some (.affineApply ⟨1, 1, [.binary .floorDiv (.dim 0) (.symbol 0)]⟩ [0, 1])⟩],
    by decide⟩

section Soundness

variable {operands : List Value} {operandConstants : List (Option Int)} {ρ : Value → Int}

/-- An operand's attribute, when there is one, is the operand's value. -/
theorem AttributesMatch.getD {i : Nat} {c : Int}
    (hmatch : AttributesMatch operands operandConstants ρ) (h : operandConstants.getD i none = some c) :
    (operands.map ρ).getD i 0 = c := by
  rw [List.getD_eq_getElem?_getD] at h
  cases hi : operandConstants[i]? with
  | none => rw [hi] at h; cases h
  | some a =>
    rw [hi, Option.getD_some] at h
    subst h
    rw [List.getD_eq_getElem?_getD, List.getElem?_map, hmatch i _ hi, Option.getD_some]

/-- A folded result is the result's value on the operands. -/
theorem AffineExpr.constantFold_sound (hmatch : AttributesMatch operands operandConstants ρ)
    {numDims : Nat} {e : AffineExpr} {c : Int} (h : e.constantFold numDims operandConstants = some c) :
    c = e.eval (fun i => (operands.map ρ).getD i 0)
      (fun j => (operands.map ρ).getD (numDims + j) 0) := by
  induction e generalizing c with
  | dim i => exact (hmatch.getD h).symm
  | symbol j => exact (hmatch.getD h).symm
  | constant c' => cases h; rfl
  | binary k lhs rhs ihl ihr =>
    unfold constantFold at h
    obtain ⟨l, hl, h⟩ := Option.bind_eq_some.mp h
    obtain ⟨r, hr, h⟩ := Option.bind_eq_some.mp h
    cases h
    rw [eval, ← ihl hl, ← ihr hr]

end Soundness

/-- `(d0)[s0] -> (d0 floordiv s0)`. -/
def floorDivBySymbol : AffineMap := ⟨1, 1, [.binary .floorDiv (.dim 0) (.symbol 0)]⟩

/-- The verified `affine.apply (d0)[s0] -> (d0 floordiv s0) (%c7)[%c0]`, with both operands'
constant attributes, divides by zero, yet its fold returns an attribute instead of failing. -/
theorem AffineApplyOp.fold_ignores_zero_divisor :
    verifyAffineApply constantDivision floorDivBySymbol [0, 1] true = .ok () ∧
      floorDivBySymbol.divisorsPositiveOn [7, 0] = false ∧
      ∃ c, AffineApplyOp.fold floorDivBySymbol [0, 1] [some 7, some 0] = some (.attribute c) :=
  ⟨rfl, by decide, ⟨_, rfl⟩⟩

end Mlir
