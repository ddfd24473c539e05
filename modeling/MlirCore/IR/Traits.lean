import MlirCore.Affine.Validity
import MlirCore.IR.Operation

/-!
# Operation traits that compare types

The "same type" traits of `OpTrait::impl` check every type against one reference, the first
operand's or result's, in the shared loop `verifyAllAgainst`. Under equality that is checking
every pair. `verifyShapeMatch` accepts an unranked shaped type against any shaped type, so it is
not transitive, and an unranked first operand lets two different ranked shapes through. A type is
what the traits read of it: kind, shape and element type; `failure()` is the empty error.
-/

namespace Mlir

/-- What `dyn_cast<ShapedType>` and `hasRank` tell of a type: it is not a shaped type, or it is
a shaped type without a rank, or a ranked one with its dimension sizes. -/
inductive Shape where
  | unshaped
  | unranked
  | ranked (dims : List Int)
  deriving Repr, DecidableEq

/-- A type as the traits read it: its kind (tensor, vector, an integer type, ...), its shape,
and the identity of its element type, which only shaped types have. -/
structure OpType where
  kind : String
  shape : Shape
  elementType : TypeId
  deriving Repr, DecidableEq

/-- `failure()`: the verifier fails without a diagnostic. -/
def silentFailure : Except String Unit := .error ""

/-- `verifyShapeMatch`: both types are not shaped, or both are shaped and one is unranked or
their shapes are equal. The element types do not matter. -/
def verifyShapeMatch (type1 type2 : OpType) : Bool :=
  match type1.shape, type2.shape with
  | .unshaped, shape2 => shape2 == .unshaped
  | _, .unshaped => false
  | .ranked dims1, .ranked dims2 => dims1 == dims2
  | _, _ => true

/-- The loop the "same" traits share: each type is checked against the reference type, and the
first one that fails reports `message`. -/
def verifyAllAgainst (name message : String) (compatible : OpType → OpType → Bool)
    (reference : OpType) (types : List OpType) : Except String Unit :=
  types.forM fun type =>
    if compatible type reference = false then emitOpError name message else pure ()

/-- `verifySameTypeOperands`: zero or one operand always have the same type; otherwise every
later operand has the first operand's type. -/
def verifySameTypeOperands (name : String) (operandTypes : List OpType) : Except String Unit :=
  match operandTypes with
  | type :: otherTypes@(_ :: _) =>
    verifyAllAgainst name "requires all operands to have the same type" (· == ·) type otherTypes
  | _ => pure ()

/-- `verifySameOperandsAndResultShape`: every result and every later operand has a shape that
matches the first operand's. -/
def verifySameOperandsAndResultShape (name : String) (operandTypes resultTypes : List OpType) :
    Except String Unit :=
  match operandTypes, resultTypes with
  | type :: otherOperandTypes, resultTypes@(_ :: _) => do
    verifyAllAgainst name "requires the same shape for all operands and results" verifyShapeMatch
      type resultTypes
    verifyAllAgainst name "requires the same shape for all operands and results" verifyShapeMatch
      type otherOperandTypes
  | _, _ => silentFailure

/-- `verifySameOperandsAndResultType`: every later result and every operand has the first
result's type. -/
def verifySameOperandsAndResultType (name : String) (operandTypes resultTypes : List OpType) :
    Except String Unit :=
  match operandTypes, resultTypes with
  | operandTypes@(_ :: _), type :: otherResultTypes => do
    verifyAllAgainst name "requires the same type for all operands and results" (· == ·) type
      otherResultTypes
    verifyAllAgainst name "requires the same type for all operands and results" (· == ·) type
      operandTypes
  | _, _ => silentFailure

/-- One type of `verifySameOperandsAndResultElementType`: it must be shaped, with the reference
element type. -/
def verifyElementTypeOf (name notShaped : String) (elementType : TypeId) (type : OpType) :
    Except String Unit :=
  if type.shape = .unshaped then emitOpError name notShaped
  else if type.elementType ≠ elementType then
    emitOpError name "requires the same element type for all operands and results"
  else pure ()

/-- `verifySameOperandsAndResultElementType`: the first result is shaped, and every later result
and every operand is shaped with its element type. -/
def verifySameOperandsAndResultElementType (name : String) (operandTypes resultTypes : List OpType) :
    Except String Unit :=
  match operandTypes, resultTypes with
  | operandTypes@(_ :: _), type :: otherResultTypes =>
    if type.shape = .unshaped then emitOpError name "requires shaped type results" else do
    otherResultTypes.forM (verifyElementTypeOf name "requires shaped type results" type.elementType)
    operandTypes.forM (verifyElementTypeOf name "requires shaped type operands" type.elementType)
  | _, _ => silentFailure

/-! ## The shared loop -/

/-- A list of checks passes exactly when each check passes. -/
theorem forM_eq_ok {α : Type} (f : α → Except String Unit) :
    ∀ l : List α, l.forM f = .ok () ↔ ∀ a ∈ l, f a = .ok ()
  | [] => by simp [pure, Except.pure]
  | a :: l => by rw [List.forM_cons', except_bind_eq_ok, forM_eq_ok f l, List.forall_mem_cons]

/-- The shared loop passes exactly when every type is compatible with the reference. -/
theorem verifyAllAgainst_eq_ok {name message : String} {compatible : OpType → OpType → Bool}
    {reference : OpType} {types : List OpType} :
    verifyAllAgainst name message compatible reference types = .ok () ↔
      ∀ type ∈ types, compatible type reference = true := by
  simp [verifyAllAgainst, forM_eq_ok, emitOpError, pure, Except.pure]

/-- Checking every type against one of them is checking every pair, when the check compares
what `f` reads of the types for equality. -/
theorem forall_eq_reference_iff {β : Type} (f : OpType → β) {types : List OpType}
    {reference : OpType} (hmem : reference ∈ types) :
    (∀ type ∈ types, f type = f reference) ↔ ∀ a ∈ types, ∀ b ∈ types, f a = f b :=
  ⟨fun h a ha b hb => (h a ha).trans (h b hb).symm, fun h type ht => h type ht reference hmem⟩

/-! ## Shape compatibility -/

/-- Every type's shape matches itself. -/
theorem verifyShapeMatch_refl (type : OpType) : verifyShapeMatch type type = true := by
  unfold verifyShapeMatch
  split <;> simp_all

/-- Shape compatibility does not depend on the order of the two types. -/
theorem verifyShapeMatch_comm (type1 type2 : OpType) :
    verifyShapeMatch type1 type2 = verifyShapeMatch type2 type1 := by
  unfold verifyShapeMatch
  cases type1.shape <;> cases type2.shape <;> try rfl
  case ranked.ranked dims1 dims2 => exact Bool.eq_iff_iff.mpr (by simp only [beq_iff_eq]; exact eq_comm)

/-- Against a ranked or unshaped type, shape compatibility is transitive: only an unranked middle
type links two shapes that do not match. -/
theorem verifyShapeMatch_trans {type1 type2 type3 : OpType} (hmiddle : type2.shape ≠ .unranked)
    (h₁₂ : verifyShapeMatch type1 type2 = true) (h₂₃ : verifyShapeMatch type2 type3 = true) :
    verifyShapeMatch type1 type3 = true := by
  unfold verifyShapeMatch at *
  cases h₁ : type1.shape <;> cases h₂ : type2.shape <;> cases h₃ : type3.shape <;>
    simp_all

/-! ## What each trait checks -/

/-- The shape trait passes exactly when there is an operand and a result, and every result and
every later operand matches the first operand's shape. -/
theorem verifySameOperandsAndResultShape_eq_ok {name : String}
    {operandTypes resultTypes : List OpType} :
    verifySameOperandsAndResultShape name operandTypes resultTypes = .ok () ↔
      ∃ type otherOperandTypes, operandTypes = type :: otherOperandTypes ∧ resultTypes ≠ [] ∧
        ∀ t ∈ resultTypes ++ otherOperandTypes, verifyShapeMatch t type = true := by
  match operandTypes, resultTypes with
  | [], _ => simp [verifySameOperandsAndResultShape, silentFailure]
  | _ :: _, [] => simp [verifySameOperandsAndResultShape, silentFailure]
  | type :: otherOperandTypes, r :: rs =>
    simp only [verifySameOperandsAndResultShape, except_bind_eq_ok, verifyAllAgainst_eq_ok]
    constructor
    · rintro ⟨hr, ho⟩
      exact ⟨type, otherOperandTypes, rfl, List.cons_ne_nil r rs, List.forall_mem_append.mpr ⟨hr, ho⟩⟩
    · rintro ⟨_, _, heq, -, hall⟩
      obtain ⟨rfl, rfl⟩ := List.cons.inj heq
      exact List.forall_mem_append.mp hall

/-- Pairwise compatible shapes always pass the shape trait. -/
theorem verifySameOperandsAndResultShape_of_pairwise {name : String}
    {operandTypes resultTypes : List OpType} (hoperands : operandTypes ≠ [])
    (hresults : resultTypes ≠ [])
    (hpairs : ∀ a ∈ operandTypes ++ resultTypes, ∀ b ∈ operandTypes ++ resultTypes,
      verifyShapeMatch a b = true) :
    verifySameOperandsAndResultShape name operandTypes resultTypes = .ok () := by
  obtain ⟨type, otherOperandTypes, rfl⟩ := List.exists_cons_of_ne_nil hoperands
  refine verifySameOperandsAndResultShape_eq_ok.mpr
    ⟨type, otherOperandTypes, rfl, hresults, fun t ht => hpairs t ?_ type (by simp)⟩
  rcases List.mem_append.mp ht with ht | ht <;> simp [ht]

/-- When the first operand is not unranked, passing the shape trait makes every pair of types
compatible: the reference is then a point through which compatibility is transitive. -/
theorem pairwise_of_verifySameOperandsAndResultShape {name : String}
    {type : OpType} {otherOperandTypes resultTypes : List OpType}
    (hranked : type.shape ≠ .unranked)
    (h : verifySameOperandsAndResultShape name (type :: otherOperandTypes) resultTypes = .ok ()) :
    ∀ a ∈ type :: otherOperandTypes ++ resultTypes, ∀ b ∈ type :: otherOperandTypes ++ resultTypes,
      verifyShapeMatch a b = true := by
  obtain ⟨type', others, heq, -, hall⟩ := verifySameOperandsAndResultShape_eq_ok.mp h
  obtain ⟨rfl, rfl⟩ := List.cons.inj heq
  have hmatch : ∀ t ∈ type :: otherOperandTypes ++ resultTypes, verifyShapeMatch t type = true := by
    intro t ht
    rcases List.mem_cons.mp ht with rfl | ht
    · exact verifyShapeMatch_refl t
    · exact hall t (by rcases List.mem_append.mp ht with ht | ht <;> simp [ht])
  intro a ha b hb
  exact verifyShapeMatch_trans hranked (hmatch a ha)
    ((verifyShapeMatch_comm type b).trans (hmatch b hb))

/-- An unranked first operand, a `tensor<3xf32>` operand and a `tensor<2xf32>` result: each
matches the unranked reference, so the trait passes, though the ranked shapes differ. -/
theorem verifySameOperandsAndResultShape_accepts_mismatch (name : String) :
    verifySameOperandsAndResultShape name [⟨"tensor", .unranked, 0⟩, ⟨"tensor", .ranked [3], 0⟩]
        [⟨"tensor", .ranked [2], 0⟩] = .ok () ∧
      verifyShapeMatch ⟨"tensor", .ranked [3], 0⟩ ⟨"tensor", .ranked [2], 0⟩ = false :=
  ⟨rfl, rfl⟩

/-- The type traits compare by equality, which is transitive: they pass exactly when there is
an operand and a result and all of these types are the same. -/
theorem verifySameOperandsAndResultType_eq_ok {name : String}
    {operandTypes resultTypes : List OpType} :
    verifySameOperandsAndResultType name operandTypes resultTypes = .ok () ↔
      operandTypes ≠ [] ∧ resultTypes ≠ [] ∧
        ∀ a ∈ operandTypes ++ resultTypes, ∀ b ∈ operandTypes ++ resultTypes, a = b := by
  match operandTypes, resultTypes with
  | [], _ => simp [verifySameOperandsAndResultType, silentFailure]
  | _ :: _, [] => simp [verifySameOperandsAndResultType, silentFailure]
  | o :: os, type :: otherResultTypes =>
    simp only [verifySameOperandsAndResultType, except_bind_eq_ok, verifyAllAgainst_eq_ok,
      beq_iff_eq]
    have href := forall_eq_reference_iff id (by simp : type ∈ (o :: os) ++ type :: otherResultTypes)
    simp only [id_eq] at href
    rw [← href]
    simp only [List.forall_mem_append, List.forall_mem_cons, ne_eq, reduceCtorEq, not_false_eq_true,
      true_and]
    exact and_comm

/-- The operand type trait passes exactly when all operands have one type. -/
theorem verifySameTypeOperands_eq_ok {name : String} {operandTypes : List OpType} :
    verifySameTypeOperands name operandTypes = .ok () ↔
      ∀ a ∈ operandTypes, ∀ b ∈ operandTypes, a = b := by
  match operandTypes with
  | [] => simp [verifySameTypeOperands, pure, Except.pure]
  | [a] => simp [verifySameTypeOperands, pure, Except.pure]
  | type :: otherType :: rest =>
    have href := forall_eq_reference_iff id (List.mem_cons_self type (otherType :: rest))
    simp only [id_eq] at href
    rw [verifySameTypeOperands, verifyAllAgainst_eq_ok, ← href]
    simp

/-- The equality traits pass exactly when every pair of their types is equal; the shape trait
passes exactly when every pair is compatible when its first operand is not unranked. -/
theorem sameTypeTraits_check_every_pair (name : String) :
    (∀ operandTypes : List OpType, verifySameTypeOperands name operandTypes = .ok () ↔
      ∀ a ∈ operandTypes, ∀ b ∈ operandTypes, a = b) ∧
    (∀ operandTypes resultTypes : List OpType,
      verifySameOperandsAndResultType name operandTypes resultTypes = .ok () ↔
        operandTypes ≠ [] ∧ resultTypes ≠ [] ∧
          ∀ a ∈ operandTypes ++ resultTypes, ∀ b ∈ operandTypes ++ resultTypes, a = b) ∧
    ∀ (type : OpType) (otherOperandTypes resultTypes : List OpType), type.shape ≠ .unranked →
      (verifySameOperandsAndResultShape name (type :: otherOperandTypes) resultTypes = .ok () ↔
        resultTypes ≠ [] ∧ ∀ a ∈ type :: otherOperandTypes ++ resultTypes,
          ∀ b ∈ type :: otherOperandTypes ++ resultTypes, verifyShapeMatch a b = true) :=
  ⟨fun _ => verifySameTypeOperands_eq_ok, fun _ _ => verifySameOperandsAndResultType_eq_ok,
    fun _ _ _ hranked => ⟨fun h =>
      ⟨(verifySameOperandsAndResultShape_eq_ok.mp h).elim fun _ ⟨_, _, hresults, _⟩ => hresults,
        pairwise_of_verifySameOperandsAndResultShape hranked h⟩,
      fun ⟨hresults, hpairs⟩ => verifySameOperandsAndResultShape_of_pairwise
        (List.cons_ne_nil _ _) hresults hpairs⟩⟩

/-- One type passes the element type check exactly when it is shaped with the reference element
type. -/
theorem verifyElementTypeOf_eq_ok {name notShaped : String} {elementType : TypeId}
    {type : OpType} :
    verifyElementTypeOf name notShaped elementType type = .ok () ↔
      type.shape ≠ .unshaped ∧ type.elementType = elementType := by
  unfold verifyElementTypeOf
  rw [ite_emitOpError_eq_ok, ite_emitOpError_eq_ok, not_not]
  exact and_congr_right fun _ => and_iff_left rfl

/-- The element type trait compares by equality too: it passes exactly when there is an operand
and a result, and all of these types are shaped with one element type. -/
theorem verifySameOperandsAndResultElementType_eq_ok {name : String}
    {operandTypes resultTypes : List OpType} :
    verifySameOperandsAndResultElementType name operandTypes resultTypes = .ok () ↔
      operandTypes ≠ [] ∧ resultTypes ≠ [] ∧
        (∀ t ∈ operandTypes ++ resultTypes, t.shape ≠ .unshaped) ∧
        ∀ a ∈ operandTypes ++ resultTypes, ∀ b ∈ operandTypes ++ resultTypes,
          a.elementType = b.elementType := by
  match operandTypes, resultTypes with
  | [], _ => simp [verifySameOperandsAndResultElementType, silentFailure]
  | _ :: _, [] => simp [verifySameOperandsAndResultElementType, silentFailure]
  | o :: os, type :: otherResultTypes =>
    have hmem : type ∈ (o :: os) ++ type :: otherResultTypes := by simp
    rw [verifySameOperandsAndResultElementType, ite_emitOpError_eq_ok, except_bind_eq_ok,
      forM_eq_ok, forM_eq_ok, ← forall_eq_reference_iff OpType.elementType hmem]
    simp only [verifyElementTypeOf_eq_ok, List.forall_mem_append, List.forall_mem_cons, ne_eq,
      reduceCtorEq, not_false_eq_true, true_and]
    constructor
    · rintro ⟨htype, hr, ⟨ho, heo⟩, hos⟩
      exact ⟨⟨⟨ho, fun t ht => (hos t ht).1⟩, htype, fun t ht => (hr t ht).1⟩,
        ⟨heo, fun t ht => (hos t ht).2⟩, fun t ht => (hr t ht).2⟩
    · rintro ⟨⟨⟨ho, hos⟩, htype, hr⟩, ⟨heo, heos⟩, her⟩
      exact ⟨htype, fun t ht => ⟨hr t ht, her t ht⟩, ⟨ho, heo⟩, fun t ht => ⟨hos t ht, heos t ht⟩⟩

/-! ## Operand and result counts

The count traits compare the operation's operand or result count with a fixed number; they differ
only in the comparison and the message, so they are one check, `verifyCount`, applied to each
member's own comparison and message. -/

/-- The count traits of `OpTrait::impl`: `message` unless the count passes `accepts`. -/
def verifyCount (name : String) (accepts : Nat → Bool) (message : String) (count : Nat) :
    Except String Unit :=
  if accepts count then pure () else emitOpError name message

/-- `verifyZeroOperands`, given `getNumOperands()`. -/
def verifyZeroOperands (name : String) (count : Nat) : Except String Unit :=
  verifyCount name (· == 0) "requires zero operands" count

/-- `verifyOneOperand`. -/
def verifyOneOperand (name : String) (count : Nat) : Except String Unit :=
  verifyCount name (· == 1) "requires a single operand" count

/-- `verifyNOperands`. -/
def verifyNOperands (name : String) (count numOperands : Nat) : Except String Unit :=
  verifyCount name (· == numOperands)
    ("expected " ++ toString numOperands ++ " operands, but found " ++ toString count) count

/-- `verifyAtLeastNOperands`. -/
def verifyAtLeastNOperands (name : String) (count numOperands : Nat) : Except String Unit :=
  verifyCount name (numOperands ≤ ·) ("expected " ++ toString numOperands ++ " or more operands") count

/-- `verifyZeroResult`, given `getNumResults()`. -/
def verifyZeroResult (name : String) (count : Nat) : Except String Unit :=
  verifyCount name (· == 0) "requires zero results" count

/-- `verifyOneResult`. -/
def verifyOneResult (name : String) (count : Nat) : Except String Unit :=
  verifyCount name (· == 1) "requires one result" count

/-- `verifyNResults`. -/
def verifyNResults (name : String) (count numOperands : Nat) : Except String Unit :=
  verifyCount name (· == numOperands) ("expected " ++ toString numOperands ++ " results") count

/-- `verifyAtLeastNResults`. -/
def verifyAtLeastNResults (name : String) (count numOperands : Nat) : Except String Unit :=
  verifyCount name (numOperands ≤ ·) ("expected " ++ toString numOperands ++ " or more results") count

/-- A count trait passes exactly when its comparison holds. -/
theorem verifyCount_eq_ok {name message : String} {accepts : Nat → Bool} {count : Nat} :
    verifyCount name accepts message count = .ok () ↔ accepts count = true := by
  unfold verifyCount
  split <;> simp_all [emitOpError, pure, Except.pure]

end Mlir
