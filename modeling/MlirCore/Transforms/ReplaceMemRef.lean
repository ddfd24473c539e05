import MlirCore.Affine.Compose
import MlirCore.IR.BlockOrder

/-!
# Replacing the uses of a memref

`replaceAllMemRefUsesWith` visits the users of `oldMemRef` once per use, skips filtered users and
deallocations, and returns `false` at the first user that does not dereference it. Every other
user gets a replacement built before it through temporary `affine.apply`s and takes over its
results' uses; the users are erased after the loop. Dominance answers and memref types are given.
A replacement whose results feed an earlier `affine.apply` breaks the value numbering, and the
model returns `none` there. A `false` return does not undo earlier rewrites, and a user holding
`oldMemRef` twice is visited and erased twice.
-/

namespace Mlir

/-- The operation kinds the replacement tells apart, as `isa<...>` does. -/
inductive OpKind where
  | affineLoad
  | affineStore
  | affineDmaStart
  | affineDmaWait
  | affineApply
  | dealloc
  | other (name : String)
  deriving Repr, DecidableEq

/-- An attribute value: an affine map, or any other attribute by identity. -/
inductive AttrValue where
  | affineMap (map : AffineMap)
  | other (id : Nat)
  deriving Repr, DecidableEq

/-- An operation of the body: its kind, operands, results and attributes, and whether its block
is in the function body, which the values created before it inherit. -/
structure BodyOp where
  kind : OpKind
  operands : List Value
  results : List Value
  attributes : List (String × AttrValue)
  inFunctionRegion : Bool
  deriving Repr, DecidableEq

/-- The values of a body with their numbering checked. -/
def IR.ofValues (values : List ValueInfo) : Option IR :=
  if h : (List.range values.length).all (fun v => (values.getD v default).operandsPrecede v) = true
  then some ⟨values, h⟩ else none

/-- A function body: the values, as the affine analysis sees them, the operations in order, by
identity, and the identity of the next operation created. -/
structure FuncBody where
  ir : IR
  ops : List (OpId × BodyOp)
  nextOpId : OpId

namespace FuncBody

/-- The operation with identity `id`, if it is in the body. -/
def find? (s : FuncBody) (id : OpId) : Option BodyOp := s.ops.lookup id

/-- Some operation of the body has `v` as an operand. -/
def isUsed (s : FuncBody) (v : Value) : Bool := s.ops.any fun p => p.2.operands.contains v

/-- `OpBuilder::createOperation` with the insertion point before `before`: new values with the
given infos for the results, and the operation, with a fresh identity, right before `before`. -/
def createOperation (s : FuncBody) (before : OpId) (kind : OpKind) (operands : List Value)
    (resultInfos : List ValueInfo) (attributes : List (String × AttrValue))
    (inFunctionRegion : Bool) : Option (FuncBody × OpId × List Value) := do
  let results := (List.range resultInfos.length).map (s.ir.values.length + ·)
  let ir ← IR.ofValues (s.ir.values ++ resultInfos)
  let i := s.ops.findIdx (·.1 == before)
  some (⟨ir, s.ops.take i ++ (s.nextOpId, ⟨kind, operands, results, attributes, inFunctionRegion⟩) ::
    s.ops.drop i, s.nextOpId + 1⟩, s.nextOpId, results)

/-- `Value::replaceAllUsesWith`: every operand `old` of the body, and of a value's definition,
becomes `new`. -/
def replaceAllUsesWith (s : FuncBody) (old new : Value) : Option FuncBody := do
  let replace := fun v => if v = old then new else v
  let ir ← IR.ofValues (s.ir.values.map fun info =>
    { info with definingOp := info.definingOp.map fun
      | .affineApply map operands => .affineApply map (operands.map replace)
      | .dim memref => .dim (replace memref)
      | op => op })
  some { s with ir, ops := s.ops.map fun p => (p.1, { p.2 with operands := p.2.operands.map replace }) }

/-- `Operation::erase`: the operation leaves the body and is destroyed, which asserts that its
results have no uses; `none` for an operation no longer in the body, whose memory is gone. -/
def erase (s : FuncBody) (id : OpId) : Option FuncBody := do
  let op ← s.find? id
  if op.results.any s.isUsed then none
  else some { s with ops := s.ops.filter (·.1 != id) }

end FuncBody

/-- `getMultiDimIdentityMap(n)`: `n` dims, no symbols, result `i` is dim `i`. -/
def getMultiDimIdentityMap (n : Nat) : AffineMap := ⟨n, 0, (List.range n).map .dim⟩

/-- `isMemRefDereferencingOp`: `affine.load`, `affine.store`, `affine.dma_start` and
`affine.dma_wait`. -/
def isMemRefDereferencingOp (op : BodyOp) : Bool :=
  match op.kind with
  | .affineLoad | .affineStore | .affineDmaStart | .affineDmaWait => true
  | _ => false

/-- `getAttr(name).cast<AffineMapAttr>()`: the named attribute, which must be an affine map. -/
def BodyOp.mapAttr (op : BodyOp) (name : String) : Option (String × AffineMap) :=
  match op.attributes.lookup name with
  | some (.affineMap map) => some (name, map)
  | _ => none

/-- `getAffineMapAttrForMemRef`: the map attribute indexing `memref` in a memory operation, for
`affine.dma_start` the source's, the destination's, then the tag's; `none` where it asserts. -/
def getAffineMapAttrForMemRef (op : BodyOp) (memref : Value) : Option (String × AffineMap) :=
  match op.kind with
  | .affineLoad => if op.operands[0]? = some memref then op.mapAttr "map" else none
  | .affineStore => if op.operands[1]? = some memref then op.mapAttr "map" else none
  | .affineDmaStart =>
    if op.operands[0]? = some memref then op.mapAttr "src_map"
    else do
      let (_, srcMap) ← op.mapAttr "src_map"
      let dstIndex := 1 + srcMap.numInputs
      if op.operands[dstIndex]? = some memref then op.mapAttr "dst_map"
      else do
        let (_, dstMap) ← op.mapAttr "dst_map"
        if op.operands[dstIndex + 1 + dstMap.numInputs]? = some memref then op.mapAttr "tag_map"
        else none
  | .affineDmaWait => if op.operands[0]? = some memref then op.mapAttr "tag_map" else none
  | _ => none

/-- The arguments of `replaceAllMemRefUsesWith`, with what it reads of the memref types and of
the dominance analyses for its two filters. -/
structure ReplaceArgs where
  oldMemRef : Value
  newMemRef : Value
  extraIndices : List Value
  indexRemap : Option AffineMap
  extraOperands : List Value
  domInstFilter : Option (OpId → Bool)
  postDomInstFilter : Option (OpId → Bool)
  oldMemRefRank : Nat
  newMemRefRank : Nat
  sameElementType : Bool

namespace ReplaceArgs

/-- The assertions on entry: a pure dimensional remapping to the new indices less the extra ones,
or ranks that differ by the extra indices; and one element type. -/
def preconditionsHold (a : ReplaceArgs) : Bool :=
  (match a.indexRemap with
    | some indexRemap => indexRemap.numSymbols == 0 &&
        indexRemap.numInputs == a.extraOperands.length + a.oldMemRefRank &&
        indexRemap.results.length + a.extraIndices.length == a.newMemRefRank
    | none => a.oldMemRefRank + a.extraIndices.length == a.newMemRefRank) &&
    a.sameElementType

/-- The user is left alone: outside a dominance filter, or a deallocation. -/
def skips (a : ReplaceArgs) (id : OpId) (op : BodyOp) : Bool :=
  (a.domInstFilter.map fun dominates => !dominates id).getD false ||
    (a.postDomInstFilter.map fun postDominates => !postDominates id).getD false ||
    op.kind == .dealloc

end ReplaceArgs

/-- One `affine.apply` of a single-result map per result, on `operands`, before `before`: the new
values and the created operations with their results. -/
def createSingleResultApplies (before : OpId) (inFunctionRegion : Bool) (numDims numSymbols : Nat)
    (operands : List Value) : FuncBody → List AffineExpr → Option (FuncBody × List Value × List (OpId × Value))
  | s, [] => some (s, [], [])
  | s, e :: es => do
    let map : AffineMap := ⟨numDims, numSymbols, [e]⟩
    let (s, id, results) ← s.createOperation before .affineApply operands
      [⟨true, inFunctionRegion, some (.affineApply map operands)⟩] [("map", .affineMap map)]
      inFunctionRegion
    let v ← results.head?
    let (s, vs, created) ← createSingleResultApplies before inFunctionRegion numDims numSymbols operands s es
    some (s, v :: vs, (id, v) :: created)

/-- Erase the temporary `affine.apply`s whose results have no uses, in creation order. -/
def eraseDeadApplies : FuncBody → List (OpId × Value) → Option FuncBody
  | s, [] => some s
  | s, (id, v) :: rest => do
    let s ← if s.isUsed v then some s else s.erase id
    eraseDeadApplies s rest

/-- `res->replaceAllUsesWith(repOp->getResult(r))` for every result. -/
def replaceResultUses : FuncBody → List Value → List Value → Option FuncBody
  | s, old :: olds, new :: news => do
    let s ← s.replaceAllUsesWith old new
    replaceResultUses s olds news
  | s, _, _ => some s

/-- Apply each result of `map` on its own unless `map` is an identity map: the values that stand
for the map's results, and the `affine.apply`s created for them. -/
def applyMapResults (s : FuncBody) (before : OpId) (inFunctionRegion : Bool) (map : AffineMap)
    (operands : List Value) : Option (FuncBody × List Value × List (OpId × Value)) :=
  if map ≠ getMultiDimIdentityMap map.numDims then
    createSingleResultApplies before inFunctionRegion map.numDims map.numSymbols operands s map.results
  else some (s, operands, [])

/-- The map and operands of a composition that ran to completion. -/
def FullyComposeOutcome.composed? : FullyComposeOutcome → Option (AffineMap × List Value)
  | .composed map operands => some (map, operands)
  | _ => none

/-- A replacement's map operands: the extra indices, then the old map's results remapped through
`indexRemap`, each through `affine.apply`s unless an identity; with the applies created. -/
def newMapOperandsFor (a : ReplaceArgs) (s : FuncBody) (opInst : OpId) (op : BodyOp)
    (oldMap : AffineMap) (oldMapOperands : List Value) :
    Option (FuncBody × List Value × List (OpId × Value)) := do
  let (s, oldMemRefOperands, oldMapApplies) ←
    applyMapResults s opInst op.inFunctionRegion oldMap oldMapOperands
  let remapOperands := a.extraOperands ++ oldMemRefOperands
  let (s, remapOutputs, remapApplies) ←
    (a.indexRemap.map fun indexRemap =>
      applyMapResults s opInst op.inFunctionRegion indexRemap remapOperands).getD
      (some (s, remapOperands, []))
  guard (a.extraIndices.all fun e =>
    (s.ir.info e).definingOp.isSome && (isValidDim s.ir e || isValidSymbol s.ir e))
  let newMapOperands := a.extraIndices ++ remapOutputs
  guard (newMapOperands.length = a.newMemRefRank)
  some (s, newMapOperands, oldMapApplies ++ remapApplies)

/-- The new map: the identity on the new memref's indices, fully composed with the `affine.apply`s
that define its operands, simplified and canonicalized. -/
def composeNewMap (a : ReplaceArgs) (ir : IR) (newMapOperands : List Value) :
    Option (AffineMap × List Value) := do
  let (newMap, newMapOperands) ←
    (fullyComposeAffineMapAndOperands ir (maxApplyHeight ir newMapOperands)
      (getMultiDimIdentityMap a.newMemRefRank) newMapOperands).composed?
  canonicalizeMapAndOperands ir (simplifyAffineMap newMap) newMapOperands

/-- The user loop's body for a dereferencing user: its replacement, built before it with the new
memref, map and operands, takes over its results' uses. -/
def replaceUser (a : ReplaceArgs) (s : FuncBody) (opInst : OpId) (op : BodyOp) : Option FuncBody := do
  let memRefOperandPos ← op.operands.findIdx? (· == a.oldMemRef)
  let (oldMapAttrName, oldMap) ← getAffineMapAttrForMemRef op a.oldMemRef
  let oldMapNumInputs := oldMap.numInputs
  guard (memRefOperandPos + 1 + oldMapNumInputs ≤ op.operands.length)
  let oldMapOperands := (op.operands.drop (memRefOperandPos + 1)).take oldMapNumInputs
  let (s, newMapOperands, affineApplyOps) ← newMapOperandsFor a s opInst op oldMap oldMapOperands
  let (newMap, newMapOperands) ← composeNewMap a s.ir newMapOperands
  let s ← eraseDeadApplies s affineApplyOps
  let operands := op.operands.take memRefOperandPos ++ a.newMemRef :: newMapOperands ++
    op.operands.drop (memRefOperandPos + 1 + oldMapNumInputs)
  let attributes := op.attributes.map fun attr =>
    if attr.1 = oldMapAttrName then (attr.1, .affineMap newMap) else attr
  let (s, _, results) ← s.createOperation opInst op.kind operands (op.results.map s.ir.info)
    attributes op.inFunctionRegion
  replaceResultUses s op.results results

/-- How the user loop ends: at a user that does not dereference the memref, or after the last
user with the operations to erase. -/
inductive UserLoopResult where
  | escaped (s : FuncBody)
  | finished (s : FuncBody) (opsToErase : List OpId)

/-- The loop over the users of `oldMemRef`, one visit per use in use-list order; uses it creates
go to the front of the list, out of the early-increment range. -/
def userLoop (a : ReplaceArgs) : FuncBody → List OpId → List OpId → Option UserLoopResult
  | s, [], opsToErase => some (.finished s opsToErase)
  | s, opInst :: users, opsToErase => do
    let op ← s.find? opInst
    if a.skips opInst op then userLoop a s users opsToErase
    else if !isMemRefDereferencingOp op then some (.escaped s)
    else
      let s ← replaceUser a s opInst op
      userLoop a s users (opsToErase ++ [opInst])

/-- The final loop: erase every operation collected, in order. -/
def eraseOps : FuncBody → List OpId → Option FuncBody
  | s, [] => some s
  | s, id :: ids => do
    let s ← s.erase id
    eraseOps s ids

/-- The users of `v`, one entry per use, in body order; the use list holds them in some
order. -/
def FuncBody.usesOf (s : FuncBody) (v : Value) : List OpId :=
  s.ops.flatMap fun p => (p.2.operands.filter (· == v)).map fun _ => p.1

/-- `replaceAllMemRefUsesWith` with the users of `oldMemRef` in use-list order; `none` where the
source asserts or erases an operation twice. -/
def replaceAllMemRefUsesWith (a : ReplaceArgs) (s : FuncBody) (users : List OpId) :
    Option (Bool × FuncBody) :=
  if !a.preconditionsHold then none
  else
    match userLoop a s users [] with
    | some (.escaped s) => some (false, s)
    | some (.finished s opsToErase) => (eraseOps s opsToErase).map ((true, ·))
    | none => none

/-! ## Fresh identities -/

namespace FuncBody

variable {s : FuncBody}

/-- Every operation of the body has an identity below the next one to be created. -/
def Fresh (s : FuncBody) : Prop := ∀ p ∈ s.ops, p.1 < s.nextOpId

/-- Freshness of identities is decidable. -/
instance (s : FuncBody) : Decidable s.Fresh :=
  inferInstanceAs (Decidable (∀ p ∈ s.ops, p.1 < s.nextOpId))

/-- `s'` allocates identities upwards from `s` and keeps it fresh. -/
structure Grows (s s' : FuncBody) : Prop where
  nextOpId_le : s.nextOpId ≤ s'.nextOpId
  fresh : s.Fresh → s'.Fresh

theorem Grows.refl (s : FuncBody) : s.Grows s := ⟨le_rfl, id⟩

theorem Grows.trans {s₁ s₂ s₃ : FuncBody} (h₁ : s₁.Grows s₂) (h₂ : s₂.Grows s₃) : s₁.Grows s₃ :=
  ⟨h₁.nextOpId_le.trans h₂.nextOpId_le, h₂.fresh ∘ h₁.fresh⟩

/-- A body with the same identity allocator and no operation that `s` lacks grows from it. -/
theorem grows_of_ids {s s' : FuncBody} (hnext : s'.nextOpId = s.nextOpId)
    (hids : ∀ p ∈ s'.ops, ∃ q ∈ s.ops, q.1 = p.1) : s.Grows s' :=
  ⟨hnext.ge, fun hs p hp => by obtain ⟨q, hq, heq⟩ := hids p hp; rw [hnext, ← heq]; exact hs q hq⟩

/-- A created operation gets the next identity and sits in the body. -/
theorem createOperation_eq_some {before : OpId} {kind : OpKind} {operands : List Value}
    {infos : List ValueInfo} {attributes : List (String × AttrValue)} {region : Bool}
    {s' : FuncBody} {id : OpId} {results : List Value}
    (h : s.createOperation before kind operands infos attributes region = some (s', id, results)) :
    s.Grows s' ∧ id = s.nextOpId ∧ ∃ o, (id, o) ∈ s'.ops := by
  simp only [createOperation, Option.bind_eq_bind, Option.bind_eq_some, Option.some.injEq] at h
  obtain ⟨ir, -, rfl, rfl, -⟩ := h
  refine ⟨⟨Nat.le_succ _, fun hs p hp => ?_⟩, rfl, _, List.mem_append_right _ (List.mem_cons_self _ _)⟩
  simp only [List.mem_append, List.mem_cons] at hp
  rcases hp with hp | rfl | hp
  · exact Nat.lt_succ_of_lt (hs p (List.mem_of_mem_take hp))
  · exact Nat.lt_succ_self _
  · exact Nat.lt_succ_of_lt (hs p (List.mem_of_mem_drop hp))

/-- Replacing uses renames operands only. -/
theorem replaceAllUsesWith_grows {old new : Value} {s' : FuncBody}
    (h : s.replaceAllUsesWith old new = some s') :
    s.Grows s' ∧ ∀ p ∈ s.ops, ∃ q ∈ s'.ops, q.1 = p.1 := by
  obtain ⟨ir, -, h⟩ := Option.bind_eq_some.mp h
  cases h
  exact ⟨grows_of_ids rfl fun p hp => by
      obtain ⟨q, hq, rfl⟩ := List.mem_map.mp hp; exact ⟨q, hq, rfl⟩,
    fun p hp => ⟨_, List.mem_map_of_mem _ hp, rfl⟩⟩

/-- Erasing an operation only removes it. -/
theorem erase_grows {id : OpId} {s' : FuncBody} (h : s.erase id = some s') : s.Grows s' := by
  simp only [erase, Option.bind_eq_bind, Option.bind_eq_some] at h
  obtain ⟨op, -, h⟩ := h
  split_ifs at h
  cases h
  exact grows_of_ids rfl fun p hp => ⟨p, List.mem_of_mem_filter hp, rfl⟩

end FuncBody

open FuncBody

/-- Applying map results one by one only creates operations. -/
theorem createSingleResultApplies_grows {before : OpId} {region : Bool} {numDims numSymbols : Nat}
    {operands : List Value} :
    ∀ {s : FuncBody} {es : List AffineExpr} {r : FuncBody × List Value × List (OpId × Value)},
      createSingleResultApplies before region numDims numSymbols operands s es = some r → s.Grows r.1
  | _, [], _, h => by cases h; exact .refl _
  | _, _ :: _, _, h => by
    simp only [createSingleResultApplies, Option.bind_eq_bind, Option.bind_eq_some] at h
    obtain ⟨⟨s₁, id, results⟩, h₁, _, _, r₂, h₂, h⟩ := h
    cases h
    have g₂ := createSingleResultApplies_grows h₂
    exact (createOperation_eq_some h₁).1.trans g₂

theorem applyMapResults_grows {s : FuncBody} {before : OpId} {region : Bool} {map : AffineMap}
    {operands : List Value} {r : FuncBody × List Value × List (OpId × Value)}
    (h : applyMapResults s before region map operands = some r) : s.Grows r.1 := by
  unfold applyMapResults at h
  split_ifs at h
  · exact createSingleResultApplies_grows h
  · cases h; exact .refl _

/-- Erasing dead temporaries only removes operations. -/
theorem eraseDeadApplies_grows :
    ∀ {s s' : FuncBody} {applies : List (OpId × Value)}, eraseDeadApplies s applies = some s' → s.Grows s'
  | _, _, [], h => by cases h; exact .refl _
  | _, _, _ :: _, h => by
    simp only [eraseDeadApplies, Option.bind_eq_bind] at h
    split_ifs at h
    · rw [Option.some_bind] at h
      exact eraseDeadApplies_grows h
    · obtain ⟨s₁, h₁, h⟩ := Option.bind_eq_some.1 h
      exact (erase_grows h₁).trans (eraseDeadApplies_grows h)

/-- Taking over result uses renames operands only. -/
theorem replaceResultUses_grows :
    ∀ {s s' : FuncBody} {olds news : List Value}, replaceResultUses s olds news = some s' →
      s.Grows s' ∧ ∀ p ∈ s.ops, ∃ q ∈ s'.ops, q.1 = p.1
  | _, _, [], _, h | _, _, _ :: _, [], h => by cases h; exact ⟨.refl _, fun p hp => ⟨p, hp, rfl⟩⟩
  | _, _, _ :: _, _ :: _, h => by
    obtain ⟨s₁, h₁, h⟩ := Option.bind_eq_some.mp h
    obtain ⟨g₁, k₁⟩ := replaceAllUsesWith_grows h₁
    obtain ⟨g₂, k₂⟩ := replaceResultUses_grows h
    exact ⟨g₁.trans g₂, fun p hp => by
      obtain ⟨q, hq, hqp⟩ := k₁ p hp
      obtain ⟨q', hq', hq'q⟩ := k₂ q hq
      exact ⟨q', hq', hq'q.trans hqp⟩⟩

/-- The new map operands come with temporaries only. -/
theorem newMapOperandsFor_grows {a : ReplaceArgs} {s : FuncBody} {opInst : OpId} {op : BodyOp}
    {oldMap : AffineMap} {oldMapOperands : List Value} {r : FuncBody × List Value × List (OpId × Value)}
    (h : newMapOperandsFor a s opInst op oldMap oldMapOperands = some r) : s.Grows r.1 := by
  unfold newMapOperandsFor at h
  obtain ⟨⟨_, _, _⟩, h₁, h⟩ := Option.bind_eq_some.mp h
  obtain ⟨⟨_, _, _⟩, h₂, h⟩ := Option.bind_eq_some.mp h
  obtain ⟨_, -, h⟩ := Option.bind_eq_some.mp h
  obtain ⟨_, -, h⟩ := Option.bind_eq_some.mp h
  cases h
  refine (applyMapResults_grows h₁).trans ?_
  cases hremap : a.indexRemap with
  | none => rw [hremap] at h₂; cases h₂; exact .refl _
  | some indexRemap =>
    rw [hremap, Option.map_some', Option.getD_some] at h₂
    have g₂ := applyMapResults_grows h₂
    exact g₂

/-- Replacing a user creates its replacement with a fresh identity, which stays in the body. -/
theorem replaceUser_grows {a : ReplaceArgs} {s s' : FuncBody} {opInst : OpId} {op : BodyOp}
    (h : replaceUser a s opInst op = some s') : s.Grows s' ∧ ∃ p ∈ s'.ops, s.nextOpId ≤ p.1 := by
  -- the operand position, the map attribute, the bound check, the new map operands, the
  -- composed map, the erased temporaries and the created replacement, one bind at a time
  unfold replaceUser at h
  obtain ⟨_, -, h⟩ := Option.bind_eq_some.mp h
  obtain ⟨⟨_, _⟩, -, h⟩ := Option.bind_eq_some.mp h
  obtain ⟨_, -, h⟩ := Option.bind_eq_some.mp h
  obtain ⟨⟨_, _, _⟩, h₁, h⟩ := Option.bind_eq_some.mp h
  obtain ⟨⟨_, _⟩, -, h⟩ := Option.bind_eq_some.mp h
  obtain ⟨_, h₃, h⟩ := Option.bind_eq_some.mp h
  obtain ⟨⟨_, _, _⟩, h₄, h⟩ := Option.bind_eq_some.mp h
  have g₃ := (newMapOperandsFor_grows h₁).trans (eraseDeadApplies_grows h₃)
  obtain ⟨g₄, rfl, o, ho⟩ := createOperation_eq_some h₄
  obtain ⟨g₅, keep⟩ := replaceResultUses_grows h
  obtain ⟨q, hq, hid⟩ := keep _ ho
  exact ⟨(g₃.trans g₄).trans g₅, q, hq, hid ▸ g₃.nextOpId_le⟩

/-! ## The user loop, step by step -/

section UserLoop

variable {a : ReplaceArgs} {s s' : FuncBody} {opInst : OpId} {op : BodyOp} {users acc : List OpId}

/-- A user the loop skips leaves the body and the collected operations alone. -/
theorem userLoop_cons_of_skips (hop : s.find? opInst = some op) (hskip : a.skips opInst op = true) :
    userLoop a s (opInst :: users) acc = userLoop a s users acc := by
  simp [userLoop, hop, hskip]

/-- A dereferencing user the loop does not skip is replaced and collected for erasure. -/
theorem userLoop_cons_of_dereferences (hop : s.find? opInst = some op)
    (hskip : a.skips opInst op = false) (hderef : isMemRefDereferencingOp op = true) :
    userLoop a s (opInst :: users) acc =
      (replaceUser a s opInst op).bind fun s => userLoop a s users (acc ++ [opInst]) := by
  simp [userLoop, hop, hskip, hderef]

/-- What one visit of the user loop can do: skip the user, end the loop at a user that does not
dereference the memref, or replace the user and collect it for erasure. -/
theorem userLoop_cons_eq_some {r : UserLoopResult}
    (h : userLoop a s (opInst :: users) acc = some r) :
    ∃ op, s.find? opInst = some op ∧
      (a.skips opInst op = true ∧ userLoop a s users acc = some r ∨
        a.skips opInst op = false ∧ isMemRefDereferencingOp op = false ∧ r = .escaped s ∨
        a.skips opInst op = false ∧ isMemRefDereferencingOp op = true ∧
          ∃ s₁, replaceUser a s opInst op = some s₁ ∧
            userLoop a s₁ users (acc ++ [opInst]) = some r) := by
  simp only [userLoop, Option.bind_eq_bind, Option.bind_eq_some] at h
  obtain ⟨op, hop, h⟩ := h
  refine ⟨op, hop, ?_⟩
  cases hskip : a.skips opInst op <;> cases hderef : isMemRefDereferencingOp op <;>
    simp_all [Option.bind_eq_some]

/-- The loop only appends to the collected operations, and a loop that appends nothing rewrote
no user: it leaves the body unchanged. -/
theorem userLoop_finished :
    ∀ {s s' : FuncBody} {users acc acc' : List OpId},
      userLoop a s users acc = some (.finished s' acc') →
        ∃ rewritten, acc' = acc ++ rewritten ∧ (rewritten = [] → s' = s)
  | _, _, [], _, _, h => by
    simp only [userLoop, Option.some.injEq, UserLoopResult.finished.injEq] at h
    exact ⟨[], by simp [h.2], fun _ => h.1.symm⟩
  | _, _, opInst :: _, _, _, h => by
    obtain ⟨op, -, ⟨-, h⟩ | ⟨-, -, h⟩ | ⟨-, -, s₁, -, h⟩⟩ := userLoop_cons_eq_some h
    · exact userLoop_finished h
    · cases h
    · obtain ⟨rewritten, rfl, -⟩ := userLoop_finished h
      exact ⟨opInst :: rewritten, by simp, fun h => by cases h⟩

/-- A loop that ends at an escaping user ran to completion over the users before it, and the
escaping user is neither skipped nor dereferencing in the body the loop left. -/
theorem userLoop_escaped :
    ∀ {s s' : FuncBody} {users acc : List OpId},
      userLoop a s users acc = some (.escaped s') →
        ∃ pre esc post rewritten op, users = pre ++ esc :: post ∧
          userLoop a s pre acc = some (.finished s' rewritten) ∧ s'.find? esc = some op ∧
          a.skips esc op = false ∧ isMemRefDereferencingOp op = false
  | _, _, [], _, h => by simp [userLoop] at h
  | s, s', opInst :: users, acc, h => by
    obtain ⟨op, hop, ⟨hskip, h⟩ | ⟨hskip, hderef, h⟩ | ⟨hskip, hderef, s₁, h₁, h⟩⟩ :=
      userLoop_cons_eq_some h
    · obtain ⟨pre, esc, post, rewritten, op', rfl, hpre, hesc⟩ := userLoop_escaped h
      exact ⟨opInst :: pre, esc, post, rewritten, op', rfl,
        by rw [userLoop_cons_of_skips hop hskip, hpre], hesc⟩
    · cases h
      exact ⟨[], opInst, users, acc, op, rfl, rfl, hop, hskip, hderef⟩
    · obtain ⟨pre, esc, post, rewritten, op', rfl, hpre, hesc⟩ := userLoop_escaped h
      exact ⟨opInst :: pre, esc, post, rewritten, op', rfl,
        by rw [userLoop_cons_of_dereferences hop hskip hderef, h₁, Option.some_bind, hpre], hesc⟩

/-- A finished loop grows the body; if it rewrote some user, the replacement of the last one is
still in the body, with an identity the body did not have. -/
theorem userLoop_finished_grows :
    ∀ {s s' : FuncBody} {users acc acc' : List OpId},
      userLoop a s users acc = some (.finished s' acc') →
        s.Grows s' ∧ (acc' ≠ acc → ∃ p ∈ s'.ops, s.nextOpId ≤ p.1)
  | _, _, [], _, _, h => by
    simp only [userLoop, Option.some.injEq, UserLoopResult.finished.injEq] at h
    obtain ⟨rfl, rfl⟩ := h
    exact ⟨.refl _, fun h => absurd rfl h⟩
  | _, _, opInst :: _, acc, acc', h => by
    obtain ⟨op, -, ⟨-, h⟩ | ⟨-, -, h⟩ | ⟨-, -, s₁, h₁, h⟩⟩ := userLoop_cons_eq_some h
    · exact userLoop_finished_grows h
    · cases h
    · obtain ⟨g₁, p₁, hp₁, hle₁⟩ := replaceUser_grows h₁
      obtain ⟨g, hnew⟩ := userLoop_finished_grows h
      refine ⟨g₁.trans g, fun _ => ?_⟩
      by_cases hrest : acc' = acc ++ [opInst]
      · obtain ⟨rewritten, hacc, hself⟩ := userLoop_finished h
        rw [hself (by simpa [hrest] using hacc)]
        exact ⟨p₁, hp₁, hle₁⟩
      · obtain ⟨p, hp, hle⟩ := hnew hrest
        exact ⟨p, hp, g₁.nextOpId_le.trans hle⟩

end UserLoop

/-! ## What a call leaves behind -/

section Outcome

variable {a : ReplaceArgs} {s s' : FuncBody} {users : List OpId}

/-- The replacement of `%old` by `%new` on one-dimensional memrefs, without extra indices or
remapping. -/
def replaceOldByNew : ReplaceArgs := ⟨0, 1, [], none, [], none, none, 1, 1, true⟩

/-- `%v = affine.load %old[%i]` in a loop, then `call @f(%old)`: values `%old`, `%new`, the loop
induction variable `%i` and `%v`. -/
def loadThenCall : FuncBody :=
  ⟨⟨[⟨false, true, none⟩, ⟨false, true, none⟩, ⟨true, false, none⟩, ⟨false, false, some .other⟩],
      by decide⟩,
    [(0, ⟨.affineLoad, [0, 2], [3], [("map", .affineMap (getMultiDimIdentityMap 1))], false⟩),
      (1, ⟨.other "call", [0], [], [], true⟩)], 2⟩

/-- A `false` return is the user loop meeting an escaping user. -/
theorem userLoop_of_replaceAllMemRefUsesWith_false
    (h : replaceAllMemRefUsesWith a s users = some (false, s')) :
    userLoop a s users [] = some (.escaped s') := by
  unfold replaceAllMemRefUsesWith at h
  split_ifs at h
  split at h
  · next s₁ heq => cases h; exact heq
  · next s₁ ops heq => cases he : eraseOps s₁ ops <;> simp [he] at h
  · cases h

/-- A `false` return keeps the rewrites of the users before the escaping one; with fresh
identities the body is unchanged exactly when none was rewritten. -/
theorem replaceAllMemRefUsesWith_false_keeps_rewrites (hs : s.Fresh)
    (h : replaceAllMemRefUsesWith a s users = some (false, s')) :
    ∃ pre esc post rewritten op, users = pre ++ esc :: post ∧
      userLoop a s pre [] = some (.finished s' rewritten) ∧
      s'.find? esc = some op ∧ a.skips esc op = false ∧ isMemRefDereferencingOp op = false ∧
      (s'.ops = s.ops ↔ rewritten = []) := by
  obtain ⟨pre, esc, post, rewritten, op, rfl, hpre, hfind, hskip, hderef⟩ :=
    userLoop_escaped (userLoop_of_replaceAllMemRefUsesWith_false h)
  refine ⟨pre, esc, post, rewritten, op, rfl, hpre, hfind, hskip, hderef, fun hops => ?_, fun hnil => ?_⟩
  · by_contra hne
    obtain ⟨p, hp, hle⟩ := (userLoop_finished_grows hpre).2 hne
    exact absurd (hs p (hops ▸ hp)) (Nat.not_lt.2 hle)
  · obtain ⟨r, hr, hself⟩ := userLoop_finished hpre
    rw [hself (by simpa [hnil] using hr.symm)]

/-- On `loadThenCall` the loop rewrites the load before it meets the call, so the body comes
back changed. -/
theorem replaceAllMemRefUsesWith_false_keeps_rewrites_loadThenCall :
    loadThenCall.Fresh ∧ ∃ s', replaceAllMemRefUsesWith replaceOldByNew loadThenCall [0, 1] =
        some (false, s') ∧
      ∃ pre esc post rewritten op, [0, 1] = pre ++ esc :: post ∧
        userLoop replaceOldByNew loadThenCall pre [] = some (.finished s' rewritten) ∧
        s'.find? esc = some op ∧ replaceOldByNew.skips esc op = false ∧
        isMemRefDereferencingOp op = false ∧ (s'.ops = loadThenCall.ops ↔ rewritten = []) := by
  obtain ⟨s', h⟩ : ∃ s', replaceAllMemRefUsesWith replaceOldByNew loadThenCall [0, 1] =
      some (false, s') := ⟨_, rfl⟩
  exact ⟨by decide, s', h, replaceAllMemRefUsesWith_false_keeps_rewrites (by decide) h⟩

/-- With the load first in the use list, the call returns `false` and leaves the load's
replacement in the body. -/
theorem replaceAllMemRefUsesWith_not_atomic :
    loadThenCall.usesOf 0 = [0, 1] ∧
      (replaceAllMemRefUsesWith replaceOldByNew loadThenCall [0, 1]).map (fun r => (r.1, r.2.ops)) =
        some (false, (2, ⟨.affineLoad, [1, 2], [4], [("map", .affineMap (getMultiDimIdentityMap 1))],
          false⟩) :: loadThenCall.ops) := by
  decide

/-- Looking up an identity among the operations other than `id`. -/
theorem lookup_filter_ne (l : List (OpId × BodyOp)) (id x : OpId) :
    (l.filter (·.1 != id)).lookup x = if x = id then none else l.lookup x := by
  induction l with
  | nil => simp
  | cons p l ih =>
    obtain ⟨k, o⟩ := p
    by_cases hk : k = id
    · -- the entry of `id` is dropped
      subst hk
      rw [List.filter_cons_of_neg (by simp), ih]
      by_cases hx : x = k
      · simp only [hx, if_true]
      · simp only [hx, if_false, List.lookup_cons, beq_false_of_ne hx]
    · rw [List.filter_cons_of_pos (by simpa using hk)]
      by_cases hx : x = k
      · subst hx; simp [hk]
      · simp only [List.lookup_cons, beq_false_of_ne hx, ih]

/-- An erased operation is gone, and a missing one stays missing. -/
theorem FuncBody.find?_erase {id x : OpId} (h : s.erase id = some s') :
    s'.find? x = if x = id then none else s.find? x := by
  simp only [FuncBody.erase, Option.bind_eq_bind, Option.bind_eq_some] at h
  obtain ⟨op, -, h⟩ := h
  split_ifs at h
  cases h
  exact lookup_filter_ne s.ops id x

/-- An operation missing from the body cannot be erased later. -/
theorem eraseOps_eq_none_of_find?_eq_none {x : OpId} :
    ∀ {s : FuncBody} {ids : List OpId}, s.find? x = none → x ∈ ids → eraseOps s ids = none
  | _, [], _, hx => absurd hx (List.not_mem_nil _)
  | s, id :: ids, hfind, hx => by
    rw [eraseOps, Option.bind_eq_bind]
    cases he : s.erase id with
    | none => rfl
    | some s₁ =>
      rw [Option.some_bind]
      rcases List.mem_cons.1 hx with rfl | hx
      · simp [FuncBody.erase, hfind] at he
      · exact eraseOps_eq_none_of_find?_eq_none (by rw [FuncBody.find?_erase he, hfind]; simp) hx

/-- Erasing an operation twice fails: the second `erase` meets freed memory. -/
theorem eraseOps_eq_none_of_not_nodup : ∀ {s : FuncBody} {ids : List OpId}, ¬ids.Nodup → eraseOps s ids = none
  | _, [], h => absurd List.nodup_nil h
  | s, id :: ids, h => by
    rw [eraseOps, Option.bind_eq_bind]
    cases he : s.erase id with
    | none => rfl
    | some s₁ =>
      rw [Option.some_bind]
      rw [List.nodup_cons, not_and_or, not_not] at h
      rcases h with h | h
      · exact eraseOps_eq_none_of_find?_eq_none (by rw [FuncBody.find?_erase he]; simp) h
      · exact eraseOps_eq_none_of_not_nodup h

/-- A loop that collects an operation twice for erasure makes the call fail. -/
theorem replaceAllMemRefUsesWith_eq_none_of_collected_twice {opsToErase : List OpId}
    (h : userLoop a s users [] = some (.finished s' opsToErase)) (hdup : ¬opsToErase.Nodup) :
    replaceAllMemRefUsesWith a s users = none := by
  unfold replaceAllMemRefUsesWith
  split_ifs
  · rfl
  · rw [h]
    dsimp only
    rw [eraseOps_eq_none_of_not_nodup hdup, Option.map_none']

/-- `affine.dma_start %old[%i], %old[%i], %tag[%c0], %num` in a loop: a transfer within
`%old`; values `%old`, `%new`, `%i`, `%tag`, `%c0` and `%num`. -/
def dmaWithinMemRef : FuncBody :=
  ⟨⟨[⟨false, true, none⟩, ⟨false, true, none⟩, ⟨true, false, none⟩, ⟨false, true, none⟩,
      ⟨true, true, some .constant⟩, ⟨true, true, none⟩], by decide⟩,
    [(0, ⟨.affineDmaStart, [0, 2, 0, 2, 3, 4, 5], [],
      [("src_map", .affineMap (getMultiDimIdentityMap 1)),
        ("dst_map", .affineMap (getMultiDimIdentityMap 1)),
        ("tag_map", .affineMap (getMultiDimIdentityMap 1))], false⟩)], 1⟩

/-- The transfer holds `%old` twice: the loop builds two replacements still writing to `%old`,
collects the transfer twice, and fails erasing it the second time. -/
theorem replaceAllMemRefUsesWith_erases_twice :
    dmaWithinMemRef.usesOf 0 = [0, 0] ∧
      (∃ s, userLoop replaceOldByNew dmaWithinMemRef [0, 0] [] = some (.finished s [0, 0]) ∧
        s.ops = [(1, ⟨.affineDmaStart, [1, 2, 0, 2, 3, 4, 5], [],
            [("src_map", .affineMap (getMultiDimIdentityMap 1)),
              ("dst_map", .affineMap (getMultiDimIdentityMap 1)),
              ("tag_map", .affineMap (getMultiDimIdentityMap 1))], false⟩),
          (2, ⟨.affineDmaStart, [1, 2, 0, 2, 3, 4, 5], [],
            [("src_map", .affineMap (getMultiDimIdentityMap 1)),
              ("dst_map", .affineMap (getMultiDimIdentityMap 1)),
              ("tag_map", .affineMap (getMultiDimIdentityMap 1))], false⟩)] ++ dmaWithinMemRef.ops) ∧
      replaceAllMemRefUsesWith replaceOldByNew dmaWithinMemRef [0, 0] = none :=
  ⟨by decide, ⟨_, rfl, by decide⟩,
    replaceAllMemRefUsesWith_eq_none_of_collected_twice rfl (by decide)⟩

end Outcome

end Mlir
