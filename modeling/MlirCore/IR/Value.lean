import MlirCore.Affine.Map

/-!
# Values and their definitions

A value is a block argument or an operation result. `ValueInfo` records what the affine analysis
asks of it: whether it has `index` type, whether its block or defining operation sits directly in
a function body, and which operation, if any, defines it. Values are numbered so that every
operand of an `affine.apply` precedes its result, which an acyclic def-use graph always allows and
`IR` checks as a field; recursions along `affine.apply` operands are then structural on a fuel of
`v + 1`, and `fold_eq` unfolds them one level.
-/

namespace Mlir

/-- `Value *`: values are numbered, apply operands before apply results. -/
abbrev Value := Nat

/-- The defining operation kinds the affine analysis distinguishes. -/
inductive DefiningOp where
  | affineApply (map : AffineMap) (operands : List Value)
  | constant
  | dim (memref : Value)
  | other
  deriving Repr, DecidableEq

/-- What the analysis reads of a value. -/
structure ValueInfo where
  isIndex : Bool
  /-- The region of the argument's block, or of the defining operation, is a function body. -/
  inFunctionRegion : Bool
  /-- `getDefiningOp()`; `none` for a block argument. -/
  definingOp : Option DefiningOp
  deriving Repr, DecidableEq, Inhabited

/-- All operands of an `affine.apply` defining value `v` come before `v`. -/
def ValueInfo.operandsPrecede (info : ValueInfo) (v : Value) : Bool :=
  match info.definingOp with
  | some (.affineApply _ operands) => operands.all (· < v)
  | _ => true

/-- The values of one function, with their acyclic `affine.apply` numbering. -/
structure IR where
  values : List ValueInfo
  operandsPrecede : (List.range values.length).all
    (fun v => (values.getD v default).operandsPrecede v) = true

namespace IR

/-- What the analysis reads of value `v`. -/
def info (ir : IR) (v : Value) : ValueInfo := ir.values.getD v default

/-- The map and operands of the `affine.apply` defining `v`, if one does. -/
def affineApplyOf (ir : IR) (v : Value) : Option (AffineMap × List Value) :=
  match (ir.info v).definingOp with
  | some (.affineApply map operands) => some (map, operands)
  | _ => none

theorem affineApplyOf_eq_some {ir : IR} {v : Value} {map : AffineMap} {operands : List Value} :
    ir.affineApplyOf v = some (map, operands) ↔
      (ir.info v).definingOp = some (.affineApply map operands) := by
  unfold affineApplyOf
  split <;> simp_all

/-- Operands of an `affine.apply` come before its result. -/
theorem lt_of_mem_affineApplyOf {ir : IR} {v u : Value} {map : AffineMap} {operands : List Value}
    (h : ir.affineApplyOf v = some (map, operands)) (hu : u ∈ operands) : u < v := by
  have hdef := affineApplyOf_eq_some.mp h
  by_cases hv : v < ir.values.length
  · have := List.all_eq_true.mp ir.operandsPrecede v (List.mem_range.mpr hv)
    simp only [ValueInfo.operandsPrecede] at this
    rw [show ir.values.getD v default = ir.info v from rfl, hdef] at this
    simpa using List.all_eq_true.mp this u hu
  · rw [info, List.getD_eq_default _ _ (Nat.le_of_not_lt hv)] at hdef
    cases hdef

/-- Only the function's own values are defined by an `affine.apply`. -/
theorem lt_length_of_affineApplyOf {ir : IR} {v : Value} {map : AffineMap} {operands : List Value}
    (h : ir.affineApplyOf v = some (map, operands)) : v < ir.values.length := by
  by_contra hv
  have hdef := affineApplyOf_eq_some.mp h
  rw [info, List.getD_eq_default _ _ (Nat.le_of_not_lt hv)] at hdef
  cases hdef

section Fold

variable {α : Type} (ir : IR) (f : Value → Option (AffineMap × List α) → α)

/-- A recursion along `affine.apply` operands with `fuel` levels. -/
def foldAux : Nat → Value → α
  | 0, v => f v none
  | fuel + 1, v => f v ((ir.affineApplyOf v).map fun p => (p.1, p.2.map (foldAux fuel)))

/-- The recursion along `affine.apply` operands: `f v` receives the apply's map and the
results for its operands. -/
def fold (v : Value) : α := foldAux ir f (v + 1) v

/-- Any fuel above a value's number gives the same result. -/
theorem foldAux_eq_fold : ∀ (v fuel : Nat), v < fuel → foldAux ir f fuel v = fold ir f v := by
  intro v
  induction v using Nat.strong_induction_on with
  | _ v ih =>
    intro fuel hfuel
    obtain ⟨fuel, rfl⟩ : ∃ n, fuel = n + 1 := ⟨fuel - 1, by omega⟩
    unfold fold foldAux
    congr 1
    cases happ : ir.affineApplyOf v with
    | none => rfl
    | some p =>
      obtain ⟨map, operands⟩ := p
      simp only [Option.map_some', Option.some.injEq, Prod.mk.injEq, true_and]
      refine List.map_congr_left fun u hu => ?_
      have hlt : u < v := lt_of_mem_affineApplyOf happ hu
      rw [ih u hlt fuel (Nat.lt_of_lt_of_le hlt (Nat.le_of_lt_succ hfuel)), ih u hlt v hlt]

/-- One level of the recursion. -/
theorem fold_eq (v : Value) :
    fold ir f v = f v ((ir.affineApplyOf v).map fun p => (p.1, p.2.map (fold ir f))) := by
  conv_lhs => unfold fold foldAux
  cases happ : ir.affineApplyOf v with
  | none => rfl
  | some p =>
    simp only [Option.map_some']
    congr 3
    exact List.map_congr_left fun u hu =>
      foldAux_eq_fold ir f u v (lt_of_mem_affineApplyOf happ hu)

end Fold

/-- The integer a value takes under an assignment of its leaves: an `affine.apply` result
takes its map's first result on its operands' values. -/
def valueOf (ir : IR) (assignment : Value → Int) : Value → Int :=
  ir.fold fun v applied => match applied with
    | some (map, operandValues) => (map.evalOn operandValues).headD 0
    | none => assignment v

/-- The length of the longest `affine.apply` chain ending at a value. -/
def applyHeight (ir : IR) : Value → Nat :=
  ir.fold fun _ applied => match applied with
    | some (_, heights) => heights.foldr max 0 + 1
    | none => 0

/-- A member of a list is at most the list's maximum. -/
theorem le_foldr_max_of_mem {l : List Nat} {a : Nat} (h : a ∈ l) : a ≤ l.foldr max 0 := by
  induction l with
  | nil => cases h
  | cons b l ih =>
    rcases List.mem_cons.mp h with rfl | h
    · exact Nat.le_max_left _ _
    · exact Nat.le_trans (ih h) (Nat.le_max_right _ _)

/-- A value no `affine.apply` defines has height zero. -/
theorem applyHeight_eq_zero {ir : IR} {v : Value} (h : ir.affineApplyOf v = none) :
    ir.applyHeight v = 0 := by
  rw [applyHeight, fold_eq, h]
  rfl

/-- An `affine.apply` result has positive height. -/
theorem applyHeight_pos {ir : IR} {v : Value} {map : AffineMap} {operands : List Value}
    (h : ir.affineApplyOf v = some (map, operands)) : 0 < ir.applyHeight v := by
  rw [applyHeight, fold_eq ir _ v, h]
  exact Nat.succ_pos _

/-- An operand of an `affine.apply` sits strictly below the apply's result. -/
theorem applyHeight_lt_of_mem {ir : IR} {v u : Value} {map : AffineMap} {operands : List Value}
    (h : ir.affineApplyOf v = some (map, operands)) (hu : u ∈ operands) :
    ir.applyHeight u < ir.applyHeight v := by
  rw [applyHeight, fold_eq ir _ v, h]
  exact Nat.lt_succ_of_le (le_foldr_max_of_mem (List.mem_map_of_mem _ hu))

end IR

end Mlir
