import MlirCore.IR.Operation
import MlirCore.Transforms.ReplaceMemRef

/-!
# Operand layouts of the affine memory operations

The affine memory operations keep each memref and its indices in one operand list, which their
accessors split by their maps' input counts. `replaceAllMemRefUsesWith` reads it its own way, as
many operands after the memref's first occurrence as its map has inputs (`memRefMapOperands`).
Builders lay out operands as accessors read them. Only the parsers check index counts, so a
verified load with an extra index keeps an index the replacement does not rewrite, and a memref
in two roles of `affine.dma_start` is read with the first role's map. `none` stands where the
source asserts.
-/

namespace Mlir

/-- What the memory operations' verifiers read of a value's type. Element types are the types
of loaded and stored values, which are not `index` here. -/
inductive ValueType where
  | memref (rank : Nat) (elementType : TypeId) (memorySpace : Nat)
  | index
  | other (id : TypeId)
  deriving Repr, DecidableEq

/-- `cast<MemRefType>()`: the rank, element type and memory space of a memref type; `none`
where the cast asserts. -/
def ValueType.memRefType? : ValueType → Option (Nat × TypeId × Nat)
  | memref rank elementType memorySpace => some (rank, elementType, memorySpace)
  | _ => none

/-- `cast<MemRefType>().getMemorySpace()`. -/
def ValueType.getMemorySpace? (type : ValueType) : Option Nat := type.memRefType?.map (·.2.2)

/-- `isa<MemRefType>()`. -/
def ValueType.isMemRef (type : ValueType) : Bool := type.memRefType?.isSome

/-- The operands from `start` on, `count` of them; `none` past the end of the list. -/
def operandRange (operands : List Value) (start count : Nat) : Option (List Value) :=
  if start + count ≤ operands.length then some ((operands.drop start).take count) else none

/-- The operands `replaceAllMemRefUsesWith` rewrites for `memref` in `op`: as many as the map
`getAffineMapAttrForMemRef` names has inputs, right after the first occurrence of `memref`. -/
def memRefMapOperands (op : BodyOp) (memref : Value) : Option (List Value) := do
  let memRefOperandPos ← op.operands.findIdx? (· == memref)
  let (_, oldMap) ← getAffineMapAttrForMemRef op memref
  operandRange op.operands (memRefOperandPos + 1) oldMap.numInputs

/-- The checks `affine.load` and `affine.store` share after their first one: the map, when there
is one, has one result per memref dimension, and every index has `index` type. -/
def verifyMapAndIndices (name rankMessage : String) (typeOf : Value → ValueType) (op : BodyOp)
    (rank : Nat) (indices : List Value) : Except String Unit := do
  match op.mapAttr "map" with
  | some (_, map) => if map.results.length ≠ rank then emitOpError name rankMessage
  | none => pure ()
  indices.forM fun idx =>
    if typeOf idx ≠ .index then emitOpError name "index to load must have 'index' type" else pure ()

namespace AffineLoadOp

/-- `getMemRefOperandIndex`. -/
def getMemRefOperandIndex : Nat := 0

/-- `getMemRef`. -/
def getMemRef (op : BodyOp) : Option Value := op.operands[getMemRefOperandIndex]?

/-- `getIndices`: every operand after the memref. -/
def getIndices (op : BodyOp) : List Value := op.operands.drop 1

/-- `getAffineMap`. -/
def getAffineMap (op : BodyOp) : Option AffineMap := (op.mapAttr "map").map Prod.snd

/-- `build(map, operands)`: the memref and its indices as given, the map unless it is null, and
the result. -/
def build (map : Option AffineMap) (operands : List Value) (result : Value)
    (inFunctionRegion : Bool) : BodyOp :=
  ⟨.affineLoad, operands, [result], map.toList.map fun map => ("map", .affineMap map),
    inFunctionRegion⟩

/-- `build(memref, indices)`: the identity map over the memref's rank. -/
def buildIdentity (memref : Value) (rank : Nat) (indices : List Value) (result : Value)
    (inFunctionRegion : Bool) : BodyOp :=
  build (some (getMultiDimIdentityMap rank)) (memref :: indices) result inFunctionRegion

/-- `AffineLoadOp::verify`, after the traits that give it a memref operand and one result. -/
def verify (typeOf : Value → ValueType) (op : BodyOp) : Option (Except String Unit) := do
  let memref ← getMemRef op
  let result ← op.results[0]?
  let (rank, elementType, _) ← (typeOf memref).memRefType?
  pure do
    if typeOf result ≠ .other elementType then
      emitOpError "affine.load" "result type must match element type of memref"
    verifyMapAndIndices "affine.load" "affine.load affine map num results must equal memref rank"
      typeOf op rank (getIndices op)

end AffineLoadOp

namespace AffineStoreOp

/-- `getValueToStore`. -/
def getValueToStore (op : BodyOp) : Option Value := op.operands[0]?

/-- `getMemRefOperandIndex`. -/
def getMemRefOperandIndex : Nat := 1

/-- `getMemRef`. -/
def getMemRef (op : BodyOp) : Option Value := op.operands[getMemRefOperandIndex]?

/-- `getIndices`: every operand after the memref. -/
def getIndices (op : BodyOp) : List Value := op.operands.drop 2

/-- `getAffineMap`. -/
def getAffineMap (op : BodyOp) : Option AffineMap := (op.mapAttr "map").map Prod.snd

/-- `build(valueToStore, map, operands)`: the value, then the memref and its indices as given,
and the map unless it is null. -/
def build (valueToStore : Value) (map : Option AffineMap) (operands : List Value)
    (inFunctionRegion : Bool) : BodyOp :=
  ⟨.affineStore, valueToStore :: operands, [], map.toList.map fun map => ("map", .affineMap map),
    inFunctionRegion⟩

/-- `build(valueToStore, memref, operands)`: the identity map over the memref's rank. -/
def buildIdentity (valueToStore memref : Value) (rank : Nat) (operands : List Value)
    (inFunctionRegion : Bool) : BodyOp :=
  build valueToStore (some (getMultiDimIdentityMap rank)) (memref :: operands) inFunctionRegion

/-- `AffineStoreOp::verify`, after the trait that gives it an operand. -/
def verify (typeOf : Value → ValueType) (op : BodyOp) : Option (Except String Unit) := do
  let valueToStore ← getValueToStore op
  let memref ← getMemRef op
  let (rank, elementType, _) ← (typeOf memref).memRefType?
  pure do
    if typeOf valueToStore ≠ .other elementType then
      emitOpError "affine.store" "first operand must have same type memref element type"
    verifyMapAndIndices "affine.store" "affine.store affine map num results must equal memref rank"
      typeOf op rank (getIndices op)

end AffineStoreOp

namespace AffineDmaStartOp

/-- `getSrcMap`. -/
def getSrcMap (op : BodyOp) : Option AffineMap := (op.mapAttr "src_map").map Prod.snd

/-- `getDstMap`. -/
def getDstMap (op : BodyOp) : Option AffineMap := (op.mapAttr "dst_map").map Prod.snd

/-- `getTagMap`. -/
def getTagMap (op : BodyOp) : Option AffineMap := (op.mapAttr "tag_map").map Prod.snd

/-- `getSrcMemRefOperandIndex`. -/
def getSrcMemRefOperandIndex : Nat := 0

/-- `getSrcMemRef`. -/
def getSrcMemRef (op : BodyOp) : Option Value := op.operands[getSrcMemRefOperandIndex]?

/-- `getSrcIndices`: the source map's inputs after the source memref. -/
def getSrcIndices (op : BodyOp) : Option (List Value) := do
  let srcMap ← getSrcMap op
  operandRange op.operands (getSrcMemRefOperandIndex + 1) srcMap.numInputs

/-- `getDstMemRefOperandIndex`: right after the source indices. -/
def getDstMemRefOperandIndex (op : BodyOp) : Option Nat := do
  let srcMap ← getSrcMap op
  pure (getSrcMemRefOperandIndex + 1 + srcMap.numInputs)

/-- `getDstMemRef`. -/
def getDstMemRef (op : BodyOp) : Option Value := do
  let dstIndex ← getDstMemRefOperandIndex op
  op.operands[dstIndex]?

/-- `getDstIndices`: the destination map's inputs after the destination memref. -/
def getDstIndices (op : BodyOp) : Option (List Value) := do
  let dstIndex ← getDstMemRefOperandIndex op
  let dstMap ← getDstMap op
  operandRange op.operands (dstIndex + 1) dstMap.numInputs

/-- `getTagMemRefOperandIndex`: right after the destination indices. -/
def getTagMemRefOperandIndex (op : BodyOp) : Option Nat := do
  let dstIndex ← getDstMemRefOperandIndex op
  let dstMap ← getDstMap op
  pure (dstIndex + 1 + dstMap.numInputs)

/-- `getTagMemRef`. -/
def getTagMemRef (op : BodyOp) : Option Value := do
  let tagIndex ← getTagMemRefOperandIndex op
  op.operands[tagIndex]?

/-- `getTagIndices`: the tag map's inputs after the tag memref. -/
def getTagIndices (op : BodyOp) : Option (List Value) := do
  let tagIndex ← getTagMemRefOperandIndex op
  let tagMap ← getTagMap op
  operandRange op.operands (tagIndex + 1) tagMap.numInputs

/-- `getNumElements`: right after the tag indices. -/
def getNumElements (op : BodyOp) : Option Value := do
  let tagIndex ← getTagMemRefOperandIndex op
  let tagMap ← getTagMap op
  op.operands[tagIndex + 1 + tagMap.numInputs]?

/-- `isStrided`: operands follow the number of elements. -/
def isStrided (op : BodyOp) : Option Bool := do
  let tagIndex ← getTagMemRefOperandIndex op
  let tagMap ← getTagMap op
  pure (op.operands.length ≠ tagIndex + 1 + tagMap.numInputs + 1)

/-- `getStride`: the next to last operand of a strided transfer, null otherwise. -/
def getStride (op : BodyOp) : Option (Option Value) := do
  if ← isStrided op then (op.operands[op.operands.length - 1 - 1]?).map some else pure none

/-- `getNumElementsPerStride`: the last operand of a strided transfer, null otherwise. -/
def getNumElementsPerStride (op : BodyOp) : Option (Option Value) := do
  if ← isStrided op then (op.operands[op.operands.length - 1]?).map some else pure none

/-- The stride operands `build` adds: both when a stride is given, none otherwise. A stride
without a number of elements per stride adds a null operand, which a `BodyOp` cannot hold. -/
def strideOperands (stride elementsPerStride : Option Value) : Option (List Value) :=
  match stride, elementsPerStride with
  | none, _ => some []
  | some stride, some elementsPerStride => some [stride, elementsPerStride]
  | some _, none => none

/-- `AffineDmaStartOp::build`. -/
def build (srcMemRef : Value) (srcMap : AffineMap) (srcIndices : List Value) (destMemRef : Value)
    (dstMap : AffineMap) (destIndices : List Value) (tagMemRef : Value) (tagMap : AffineMap)
    (tagIndices : List Value) (numElements : Value) (stride elementsPerStride : Option Value)
    (inFunctionRegion : Bool) : Option BodyOp := do
  let strides ← strideOperands stride elementsPerStride
  pure ⟨.affineDmaStart,
    srcMemRef :: srcIndices ++ destMemRef :: destIndices ++ tagMemRef :: tagIndices ++
      numElements :: strides, [],
    [("src_map", .affineMap srcMap), ("dst_map", .affineMap dstMap), ("tag_map", .affineMap tagMap)],
    inFunctionRegion⟩

/-- The last check of `AffineDmaStartOp::verify`: the operands are the maps' inputs, the three
memrefs and the number of elements, with or without the two stride operands. -/
def verifyOperandCount (op : BodyOp) : Option (Except String Unit) := do
  let srcMap ← getSrcMap op
  let dstMap ← getDstMap op
  let tagMap ← getTagMap op
  let numInputsAllMaps := srcMap.numInputs + dstMap.numInputs + tagMap.numInputs
  if op.operands.length ≠ numInputsAllMaps + 3 + 1 ∧
      op.operands.length ≠ numInputsAllMaps + 3 + 1 + 2 then
    pure (emitOpError "affine.dma_start" "incorrect number of operands") else
  pure (pure ())

/-- `AffineDmaStartOp::verify`: the three memrefs, their memory spaces and the operand count,
each check returning its error before the next one runs. -/
def verify (typeOf : Value → ValueType) (op : BodyOp) : Option (Except String Unit) := do
  let src ← getSrcMemRef op
  if !(typeOf src).isMemRef then
    pure (emitOpError "affine.dma_start" "expected DMA source to be of memref type") else
  let dst ← getDstMemRef op
  if !(typeOf dst).isMemRef then
    pure (emitOpError "affine.dma_start" "expected DMA destination to be of memref type") else
  let tag ← getTagMemRef op
  if !(typeOf tag).isMemRef then
    pure (emitOpError "affine.dma_start" "expected DMA tag to be of memref type") else
  let srcMemorySpace ← (typeOf src).getMemorySpace?
  let dstMemorySpace ← (typeOf dst).getMemorySpace?
  if srcMemorySpace = dstMemorySpace then
    pure (emitOpError "affine.dma_start" "DMA should be between different memory spaces") else
  verifyOperandCount op

end AffineDmaStartOp

namespace AffineDmaWaitOp

/-- `getTagMemRef`. -/
def getTagMemRef (op : BodyOp) : Option Value := op.operands[0]?

/-- `getTagMap`. -/
def getTagMap (op : BodyOp) : Option AffineMap := (op.mapAttr "tag_map").map Prod.snd

/-- `getTagIndices`: the tag map's inputs after the tag memref. -/
def getTagIndices (op : BodyOp) : Option (List Value) := do
  let tagMap ← getTagMap op
  operandRange op.operands 1 tagMap.numInputs

/-- `getNumElements`: right after the tag indices. -/
def getNumElements (op : BodyOp) : Option Value := do
  let tagMap ← getTagMap op
  op.operands[1 + tagMap.numInputs]?

/-- `AffineDmaWaitOp::build`. -/
def build (tagMemRef : Value) (tagMap : AffineMap) (tagIndices : List Value) (numElements : Value)
    (inFunctionRegion : Bool) : BodyOp :=
  ⟨.affineDmaWait, tagMemRef :: tagIndices ++ [numElements], [], [("tag_map", .affineMap tagMap)],
    inFunctionRegion⟩

/-- `AffineDmaWaitOp::verify`: only the tag's type is checked. -/
def verify (typeOf : Value → ValueType) (op : BodyOp) : Option (Except String Unit) := do
  let tag ← getTagMemRef op
  pure (if !(typeOf tag).isMemRef then
    emitOpError "affine.dma_wait" "expected DMA tag to be of memref type" else pure ())

end AffineDmaWaitOp

/-- Each memref operand of a memory operation with the operands its accessors give its map;
`none` where an accessor asserts. -/
def memRefRoles (op : BodyOp) : Option (List (Value × List Value)) :=
  match op.kind with
  | .affineLoad => do
    let memref ← AffineLoadOp.getMemRef op
    pure [(memref, AffineLoadOp.getIndices op)]
  | .affineStore => do
    let memref ← AffineStoreOp.getMemRef op
    pure [(memref, AffineStoreOp.getIndices op)]
  | .affineDmaStart => do
    let src ← AffineDmaStartOp.getSrcMemRef op
    let srcIndices ← AffineDmaStartOp.getSrcIndices op
    let dst ← AffineDmaStartOp.getDstMemRef op
    let dstIndices ← AffineDmaStartOp.getDstIndices op
    let tag ← AffineDmaStartOp.getTagMemRef op
    let tagIndices ← AffineDmaStartOp.getTagIndices op
    pure [(src, srcIndices), (dst, dstIndices), (tag, tagIndices)]
  | .affineDmaWait => do
    let tag ← AffineDmaWaitOp.getTagMemRef op
    let tagIndices ← AffineDmaWaitOp.getTagIndices op
    pure [(tag, tagIndices)]
  | _ => some []

/-- Every memref of `op` has, by the op's own accessors, exactly the index operands that
`replaceAllMemRefUsesWith` rewrites for it. -/
def layoutsAgree (op : BodyOp) : Bool :=
  match memRefRoles op with
  | some roles => roles.all fun role => memRefMapOperands op role.1 == some role.2
  | none => false

section Layout

/-- A range is the rest of the list exactly when it reaches the end. -/
theorem operandRange_eq_some_drop_iff {operands : List Value} {start count : Nat} :
    operandRange operands start count = some (operands.drop start) ↔
      start + count = operands.length := by
  unfold operandRange
  split <;> simp <;> omega

/-- The operands right after a prefix, as many as a list has, are that list. -/
theorem operandRange_append (pre xs post : List Value) :
    operandRange (pre ++ xs ++ post) pre.length xs.length = some xs := by
  rw [operandRange, if_pos (by simp only [List.length_append]; omega), List.append_assoc,
    List.drop_left' rfl, List.take_left' rfl]

/-- A memref and its indices read back from a flat operand list, after the operands before them. -/
theorem read_block {operands pre indices post : List Value} {memref : Value} {position count : Nat}
    (hoperands : operands = pre ++ memref :: indices ++ post) (hposition : position = pre.length)
    (hcount : count = indices.length) :
    operands[position]? = some memref ∧ operandRange operands (position + 1) count = some indices := by
  subst hoperands hposition hcount
  refine ⟨by simp [List.getElem?_append_right (le_refl _)], ?_⟩
  simpa using operandRange_append (pre ++ [memref]) indices post

/-- The first occurrence of `v` is at `i` when `v` stands at `i` and not before. -/
theorem findIdx?_beq_eq_some : ∀ {operands : List Value} {i : Nat} {v : Value},
    operands[i]? = some v → v ∉ operands.take i → operands.findIdx? (· == v) = some i
  | [], _, _, h, _ => by simp at h
  | w :: ws, 0, v, h, _ => by
    simp only [List.getElem?_cons_zero, Option.some.injEq] at h
    simp [h]
  | w :: ws, i + 1, v, h, hnot => by
    simp only [List.take_succ_cons, List.mem_cons, not_or] at hnot
    rw [List.findIdx?_cons, if_neg (by simpa using Ne.symm hnot.1), Nat.zero_add,
      List.findIdx?_succ, findIdx?_beq_eq_some (by simpa using h) hnot.2]
    rfl

/-- No occurrence of `v` comes before its first. -/
theorem findIdx?_beq_le {operands : List Value} {i j : Nat} {v : Value}
    (h : operands.findIdx? (· == v) = some i) (hj : operands[j]? = some v) : i ≤ j := by
  obtain ⟨hi, -, hbefore⟩ := List.findIdx?_eq_some_iff_getElem.mp h
  obtain ⟨hjlen, hjv⟩ := List.getElem?_eq_some_iff.mp hj
  by_contra hlt
  exact hbefore j (by omega) (by simp [hjv])

/-- A map read through `Prod.snd` is the attribute of that name. -/
theorem BodyOp.mapAttr_eq_of_map_snd {op : BodyOp} {name : String} {map : AffineMap}
    (h : (op.mapAttr name).map Prod.snd = some map) : op.mapAttr name = some (name, map) := by
  unfold BodyOp.mapAttr at h ⊢
  split at h <;> simp_all

/-- `replaceAllMemRefUsesWith` reads the operands after the memref's first occurrence, as many as
its map has inputs. -/
theorem memRefMapOperands_eq {op : BodyOp} {memref : Value} {position : Nat} {name : String}
    {map : AffineMap} (hfind : op.operands.findIdx? (· == memref) = some position)
    (hattr : getAffineMapAttrForMemRef op memref = some (name, map)) :
    memRefMapOperands op memref = operandRange op.operands (position + 1) map.numInputs := by
  rw [memRefMapOperands, hfind, hattr]
  rfl

end Layout

namespace AffineLoadOp

/-- A load gives its indices to `replaceAllMemRefUsesWith` exactly when its map has as many
inputs as it has index operands. -/
theorem layoutsAgree_iff {op : BodyOp} {memref : Value} {map : AffineMap}
    (hkind : op.kind = .affineLoad) (hmemref : getMemRef op = some memref)
    (hmap : getAffineMap op = some map) :
    layoutsAgree op = true ↔ (getIndices op).length = map.numInputs := by
  obtain ⟨rest, hops⟩ : ∃ rest, op.operands = memref :: rest := by
    unfold getMemRef getMemRefOperandIndex at hmemref
    match hop : op.operands, hmemref with
    | w :: rest, h => exact ⟨rest, by simpa using h⟩
  have hslice : memRefMapOperands op memref = operandRange op.operands (0 + 1) map.numInputs :=
    memRefMapOperands_eq (by simp [hops]) (show getAffineMapAttrForMemRef op memref =
      some ("map", map) by simp [getAffineMapAttrForMemRef, hkind, hops,
        BodyOp.mapAttr_eq_of_map_snd hmap])
  simp only [layoutsAgree, memRefRoles, hkind, hmemref, Option.bind_eq_bind, Option.some_bind,
    Option.pure_def, List.all_cons,
    List.all_nil, Bool.and_true, beq_iff_eq, hslice, getIndices]
  rw [operandRange_eq_some_drop_iff, List.length_drop, hops, List.length_cons]
  omega

end AffineLoadOp

/-- The types of the values of `extraIndexLoad`: `%m : memref<10xf32>` (value `0`), the indices
`%i` and `%j` (values `1` and `2`), and the loaded `f32` (value `3`). -/
def extraIndexTypes : Value → ValueType
  | 0 => .memref 1 0 0
  | 3 => .other 0
  | _ => .index

/-- `%v = "affine.load"(%m, %i, %j) {map: (d0) -> (d0)}`, in the generic form, which the
custom parser's count check does not see, as `build(map, operands)` makes it. -/
def extraIndexLoad : BodyOp := AffineLoadOp.build (some ⟨1, 0, [.dim 0]⟩) [0, 1, 2] 3 true

/-- A load with one index more than its map has inputs verifies. Its accessors give `%m` the
indices `%i, %j`, and `replaceAllMemRefUsesWith` rewrites `%i` alone. -/
theorem AffineLoadOp.verify_accepts_extra_index :
    AffineLoadOp.verify extraIndexTypes extraIndexLoad = some (.ok ()) ∧
      AffineLoadOp.getIndices extraIndexLoad = [1, 2] ∧
      memRefMapOperands extraIndexLoad 0 = some [1] ∧ layoutsAgree extraIndexLoad = false :=
  ⟨rfl, rfl, rfl, rfl⟩

namespace AffineStoreOp

variable {typeOf : Value → ValueType} {op : BodyOp}

/-- A store that verifies does not store its own memref: a memref is no element type. -/
theorem valueToStore_ne_memRef {valueToStore memref : Value}
    (hver : verify typeOf op = some (.ok ())) (hvalue : getValueToStore op = some valueToStore)
    (hmemref : getMemRef op = some memref) : valueToStore ≠ memref := by
  rintro rfl
  unfold verify at hver
  simp only [hvalue, hmemref, Option.bind_eq_bind, Option.some_bind] at hver
  obtain ⟨⟨rank, elementType, memorySpace⟩, htype, hver⟩ := Option.bind_eq_some.mp hver
  rw [Option.pure_def, Option.some.injEq] at hver
  -- the stored value's type is a memref type, and the verifier wants it to be the element type
  have hsame : typeOf valueToStore = .other elementType := by
    by_contra hother
    rw [if_pos hother, emitOpError_bind] at hver
    cases hver
  rw [hsame] at htype
  cases htype

/-- A store that verifies gives its indices to `replaceAllMemRefUsesWith` exactly when its map
has as many inputs as it has index operands. -/
theorem layoutsAgree_iff {map : AffineMap} (hkind : op.kind = .affineStore)
    (hver : verify typeOf op = some (.ok ())) (hmap : getAffineMap op = some map) :
    layoutsAgree op = true ↔ (getIndices op).length = map.numInputs := by
  have hver' := hver
  unfold verify at hver'
  obtain ⟨valueToStore, hvalue, hver'⟩ := Option.bind_eq_some.mp hver'
  obtain ⟨memref, hmemref, -⟩ := Option.bind_eq_some.mp hver'
  have hne := valueToStore_ne_memRef hver hvalue hmemref
  obtain ⟨rest, hops⟩ : ∃ rest, op.operands = valueToStore :: memref :: rest := by
    unfold getValueToStore at hvalue
    unfold getMemRef getMemRefOperandIndex at hmemref
    match hop : op.operands, hvalue, hmemref with
    | v :: m :: rest, h, h' =>
      simp only [List.getElem?_cons_zero, List.getElem?_cons_succ, Option.some.injEq] at h h'
      exact ⟨rest, by rw [h, h']⟩
  have hslice : memRefMapOperands op memref = operandRange op.operands (1 + 1) map.numInputs :=
    memRefMapOperands_eq (findIdx?_beq_eq_some (by simp [hops]) (by simp [hops, Ne.symm hne]))
      (show getAffineMapAttrForMemRef op memref = some ("map", map) by
        simp [getAffineMapAttrForMemRef, hkind, hops, BodyOp.mapAttr_eq_of_map_snd hmap])
  simp only [layoutsAgree, memRefRoles, hkind, hmemref, Option.bind_eq_bind, Option.some_bind,
    Option.pure_def, List.all_cons, List.all_nil, Bool.and_true, beq_iff_eq, hslice, getIndices]
  rw [operandRange_eq_some_drop_iff, List.length_drop, hops, List.length_cons, List.length_cons]
  omega

end AffineStoreOp

/-- `replaceAllMemRefUsesWith` rewrites the indices that the accessor of a load, or of a verified
store, reads exactly when the operation has as many indices as its map has inputs. -/
theorem layoutsAgree_iff_index_count_matches :
    (∀ (op : BodyOp) (memref : Value) (map : AffineMap), op.kind = .affineLoad →
      AffineLoadOp.getMemRef op = some memref → AffineLoadOp.getAffineMap op = some map →
      (layoutsAgree op = true ↔ (AffineLoadOp.getIndices op).length = map.numInputs)) ∧
    ∀ (typeOf : Value → ValueType) (op : BodyOp) (map : AffineMap), op.kind = .affineStore →
      AffineStoreOp.verify typeOf op = some (.ok ()) → AffineStoreOp.getAffineMap op = some map →
      (layoutsAgree op = true ↔ (AffineStoreOp.getIndices op).length = map.numInputs) :=
  ⟨fun _ _ _ => AffineLoadOp.layoutsAgree_iff, fun _ _ _ => AffineStoreOp.layoutsAgree_iff⟩

namespace AffineDmaStartOp

section Accessors

variable {op : BodyOp} {srcMap dstMap tagMap : AffineMap}

/-- The destination memref's position, after the source indices. -/
theorem getDstMemRefOperandIndex_eq (hs : getSrcMap op = some srcMap) :
    getDstMemRefOperandIndex op = some (1 + srcMap.numInputs) := by
  simp [getDstMemRefOperandIndex, hs, getSrcMemRefOperandIndex]

/-- The tag memref's position, after the destination indices. -/
theorem getTagMemRefOperandIndex_eq (hs : getSrcMap op = some srcMap)
    (hd : getDstMap op = some dstMap) :
    getTagMemRefOperandIndex op = some (1 + srcMap.numInputs + 1 + dstMap.numInputs) := by
  simp [getTagMemRefOperandIndex, getDstMemRefOperandIndex_eq hs, hd]

/-- The source indices, given the source map. -/
theorem getSrcIndices_eq (hs : getSrcMap op = some srcMap) :
    getSrcIndices op = operandRange op.operands 1 srcMap.numInputs := by
  simp [getSrcIndices, hs, getSrcMemRefOperandIndex]

/-- The destination memref, given the source map. -/
theorem getDstMemRef_eq (hs : getSrcMap op = some srcMap) :
    getDstMemRef op = op.operands[1 + srcMap.numInputs]? := by
  simp [getDstMemRef, getDstMemRefOperandIndex_eq hs]

/-- The destination indices, given the source and destination maps. -/
theorem getDstIndices_eq (hs : getSrcMap op = some srcMap) (hd : getDstMap op = some dstMap) :
    getDstIndices op = operandRange op.operands (1 + srcMap.numInputs + 1) dstMap.numInputs := by
  simp [getDstIndices, getDstMemRefOperandIndex_eq hs, hd]

/-- The tag memref, given the source and destination maps. -/
theorem getTagMemRef_eq (hs : getSrcMap op = some srcMap) (hd : getDstMap op = some dstMap) :
    getTagMemRef op = op.operands[1 + srcMap.numInputs + 1 + dstMap.numInputs]? := by
  simp [getTagMemRef, getTagMemRefOperandIndex_eq hs hd]

/-- The tag indices, given the three maps. -/
theorem getTagIndices_eq (hs : getSrcMap op = some srcMap) (hd : getDstMap op = some dstMap)
    (ht : getTagMap op = some tagMap) :
    getTagIndices op = operandRange op.operands (1 + srcMap.numInputs + 1 + dstMap.numInputs + 1)
      tagMap.numInputs := by
  simp [getTagIndices, getTagMemRefOperandIndex_eq hs hd, ht]

/-- The number of elements, given the three maps. -/
theorem getNumElements_eq (hs : getSrcMap op = some srcMap) (hd : getDstMap op = some dstMap)
    (ht : getTagMap op = some tagMap) :
    getNumElements op =
      op.operands[1 + srcMap.numInputs + 1 + dstMap.numInputs + 1 + tagMap.numInputs]? := by
  simp [getNumElements, getTagMemRefOperandIndex_eq hs hd, ht]

/-- Whether operands follow the number of elements, given the three maps. -/
theorem isStrided_eq (hs : getSrcMap op = some srcMap) (hd : getDstMap op = some dstMap)
    (ht : getTagMap op = some tagMap) :
    isStrided op = some (decide (op.operands.length ≠
      1 + srcMap.numInputs + 1 + dstMap.numInputs + 1 + tagMap.numInputs + 1)) := by
  simp [isStrided, getTagMemRefOperandIndex_eq hs hd, ht]

/-- Where a memref stands first in an `affine.dma_start`, its map attribute is the source map. -/
theorem getAffineMapAttrForMemRef_src {src : Value} (hkind : op.kind = .affineDmaStart)
    (hsrc : getSrcMemRef op = some src) (hs : getSrcMap op = some srcMap) :
    getAffineMapAttrForMemRef op src = some ("src_map", srcMap) := by
  simp only [getSrcMemRef, getSrcMemRefOperandIndex] at hsrc
  simp [getAffineMapAttrForMemRef, hkind, hsrc, BodyOp.mapAttr_eq_of_map_snd hs]

/-- Where a memref does not stand first but at the destination's position, its map attribute is
the destination map. -/
theorem getAffineMapAttrForMemRef_dst {dst : Value} (hkind : op.kind = .affineDmaStart)
    (hs : getSrcMap op = some srcMap) (hd : getDstMap op = some dstMap)
    (hfirst : op.operands[0]? ≠ some dst) (hat : op.operands[1 + srcMap.numInputs]? = some dst) :
    getAffineMapAttrForMemRef op dst = some ("dst_map", dstMap) := by
  simp [getAffineMapAttrForMemRef, hkind, hfirst, BodyOp.mapAttr_eq_of_map_snd hs, hat,
    BodyOp.mapAttr_eq_of_map_snd hd]

/-- Where a memref stands at the tag's position and neither first nor at the destination's,
its map attribute is the tag map. -/
theorem getAffineMapAttrForMemRef_tag {tag : Value} (hkind : op.kind = .affineDmaStart)
    (hs : getSrcMap op = some srcMap) (hd : getDstMap op = some dstMap)
    (ht : getTagMap op = some tagMap) (hfirst : op.operands[0]? ≠ some tag)
    (hdst : op.operands[1 + srcMap.numInputs]? ≠ some tag)
    (hat : op.operands[1 + srcMap.numInputs + 1 + dstMap.numInputs]? = some tag) :
    getAffineMapAttrForMemRef op tag = some ("tag_map", tagMap) := by
  simp [getAffineMapAttrForMemRef, hkind, hfirst, hdst, BodyOp.mapAttr_eq_of_map_snd hs,
    BodyOp.mapAttr_eq_of_map_snd hd, hat, BodyOp.mapAttr_eq_of_map_snd ht]

/-- `getStride` and `getNumElementsPerStride` read the last two operands of a strided transfer. -/
theorem getStride_eq {strided : Bool} (h : isStrided op = some strided) :
    getStride op = (if strided then (op.operands[op.operands.length - 1 - 1]?).map some
      else some none) ∧
    getNumElementsPerStride op = (if strided then (op.operands[op.operands.length - 1]?).map some
      else some none) := by
  simp only [getStride, getNumElementsPerStride, h]
  cases strided <;> exact ⟨rfl, rfl⟩

end Accessors

/-- `affine.dma_start %a[%i], %b[%j], %tag[], %n, %stride, %perStride` with the maps
`(d0) -> (d0)`, `(d0) -> (d0)` and `() -> (0)`, its operands the values `0` to `7` in order. -/
def stridedCopy : BodyOp :=
  ⟨.affineDmaStart, [0, 1, 2, 3, 4, 5, 6, 7], [],
    [("src_map", .affineMap ⟨1, 0, [.dim 0]⟩), ("dst_map", .affineMap ⟨1, 0, [.dim 0]⟩),
      ("tag_map", .affineMap ⟨0, 0, [.constant 0]⟩)], true⟩

section Layouts

variable {op : BodyOp}

/-- The roles of an `affine.dma_start` are what its six accessors return. -/
theorem memRefRoles_eq_some {src dst tag : Value} {srcIndices dstIndices tagIndices : List Value}
    (hkind : op.kind = .affineDmaStart)
    (hroles : memRefRoles op = some [(src, srcIndices), (dst, dstIndices), (tag, tagIndices)]) :
    getSrcMemRef op = some src ∧ getSrcIndices op = some srcIndices ∧
      getDstMemRef op = some dst ∧ getDstIndices op = some dstIndices ∧
      getTagMemRef op = some tag ∧ getTagIndices op = some tagIndices := by
  unfold memRefRoles at hroles
  rw [hkind] at hroles
  obtain ⟨_, hsrc, hroles⟩ := Option.bind_eq_some.mp hroles
  obtain ⟨_, hsi, hroles⟩ := Option.bind_eq_some.mp hroles
  obtain ⟨_, hdst, hroles⟩ := Option.bind_eq_some.mp hroles
  obtain ⟨_, hdi, hroles⟩ := Option.bind_eq_some.mp hroles
  obtain ⟨_, htag, hroles⟩ := Option.bind_eq_some.mp hroles
  obtain ⟨_, hti, hroles⟩ := Option.bind_eq_some.mp hroles
  simp only [Option.pure_def, Option.some.injEq, List.cons.injEq, Prod.mk.injEq, and_true] at hroles
  obtain ⟨⟨rfl, rfl⟩, ⟨rfl, rfl⟩, rfl, rfl⟩ := hroles
  exact ⟨hsrc, hsi, hdst, hdi, htag, hti⟩

/-- An `affine.dma_start` whose destination and tag first occur at their own positions gives
`replaceAllMemRefUsesWith` each memref's indices as its accessors read them. -/
theorem layoutsAgree_of_first_occurrences {src dst tag : Value}
    {srcIndices dstIndices tagIndices : List Value} (hkind : op.kind = .affineDmaStart)
    (hroles : memRefRoles op = some [(src, srcIndices), (dst, dstIndices), (tag, tagIndices)])
    (hdst : op.operands.findIdx? (· == dst) = getDstMemRefOperandIndex op)
    (htag : op.operands.findIdx? (· == tag) = getTagMemRefOperandIndex op) :
    layoutsAgree op = true := by
  obtain ⟨hsrc, hsi, hdst', hdi, htag', hti⟩ := memRefRoles_eq_some hkind hroles
  -- the three maps, which the index accessors read
  obtain ⟨srcMap, hs, -⟩ := Option.bind_eq_some.mp hsi
  obtain ⟨_, _, hdi'⟩ := Option.bind_eq_some.mp hdi
  obtain ⟨dstMap, hd, -⟩ := Option.bind_eq_some.mp hdi'
  obtain ⟨_, _, hti'⟩ := Option.bind_eq_some.mp hti
  obtain ⟨tagMap, ht, -⟩ := Option.bind_eq_some.mp hti'
  rw [getDstMemRefOperandIndex_eq hs] at hdst
  rw [getTagMemRefOperandIndex_eq hs hd] at htag
  rw [getDstMemRef_eq hs] at hdst'
  rw [getTagMemRef_eq hs hd] at htag'
  -- neither the destination nor the tag stands first, nor the tag at the destination's position
  have hdst0 : op.operands[0]? ≠ some dst := fun h => by
    have := findIdx?_beq_le hdst h
    omega
  have htag0 : op.operands[0]? ≠ some tag := fun h => by
    have := findIdx?_beq_le htag h
    omega
  have htagdst : op.operands[1 + srcMap.numInputs]? ≠ some tag := fun h => by
    have := findIdx?_beq_le htag h
    omega
  have hsrcfind : op.operands.findIdx? (· == src) = some 0 :=
    findIdx?_beq_eq_some hsrc (by simp [getSrcMemRefOperandIndex])
  simp only [layoutsAgree, hroles, List.all_cons, List.all_nil, Bool.and_true, Bool.and_eq_true,
    beq_iff_eq]
  refine ⟨?_, ?_, ?_⟩
  · rw [memRefMapOperands_eq hsrcfind (getAffineMapAttrForMemRef_src hkind hsrc hs), ← hsi,
      getSrcIndices_eq hs]
  · rw [memRefMapOperands_eq hdst (getAffineMapAttrForMemRef_dst hkind hs hd hdst0 hdst'), ← hdi,
      getDstIndices_eq hs hd]
  · rw [memRefMapOperands_eq htag
      (getAffineMapAttrForMemRef_tag hkind hs hd ht htag0 htagdst htag'), ← hti,
      getTagIndices_eq hs hd ht]

/-- `stridedCopy` has three distinct memrefs, each read as its accessors read it. -/
theorem layoutsAgree_of_first_occurrences_stridedCopy :
    stridedCopy.kind = .affineDmaStart ∧
      memRefRoles stridedCopy = some [(0, [1]), (2, [3]), (4, [])] ∧
      stridedCopy.operands.findIdx? (· == 2) = getDstMemRefOperandIndex stridedCopy ∧
      stridedCopy.operands.findIdx? (· == 4) = getTagMemRefOperandIndex stridedCopy ∧
      layoutsAgree stridedCopy = true :=
  ⟨rfl, rfl, rfl, rfl, layoutsAgree_of_first_occurrences rfl rfl rfl rfl⟩

/-- The operands after the tag indices, given the three maps: the number of elements, then the
stride and the number of elements per stride exactly when there are more. -/
theorem trailing_of_drop {srcMap dstMap tagMap : AffineMap} {numElements : Value}
    {rest : List Value} (hs : getSrcMap op = some srcMap) (hd : getDstMap op = some dstMap)
    (ht : getTagMap op = some tagMap)
    (hrest : op.operands.drop (1 + srcMap.numInputs + 1 + dstMap.numInputs + 1 + tagMap.numInputs) =
      numElements :: rest) :
    getNumElements op = some numElements ∧
      (rest = [] → isStrided op = some false ∧ getStride op = some none ∧
        getNumElementsPerStride op = some none) ∧
      (∀ stride elementsPerStride, rest = [stride, elementsPerStride] →
        isStrided op = some true ∧ getStride op = some (some stride) ∧
          getNumElementsPerStride op = some (some elementsPerStride)) := by
  have hnum := getNumElements_eq hs hd ht
  have hstr := isStrided_eq hs hd ht
  obtain ⟨base, hbase⟩ : ∃ base,
      1 + srcMap.numInputs + 1 + dstMap.numInputs + 1 + tagMap.numInputs = base := ⟨_, rfl⟩
  rw [hbase] at hrest hnum hstr
  have hread : ∀ j, op.operands[base + j]? = (numElements :: rest)[j]? := fun j => by
    rw [← hrest, List.getElem?_drop]
  have hlen : op.operands.length = base + 1 + rest.length := by
    have := congrArg List.length hrest
    simp only [List.length_drop, List.length_cons] at this
    omega
  have hfirst := hread 0
  rw [Nat.add_zero, List.getElem?_cons_zero] at hfirst
  refine ⟨hnum.trans hfirst, fun hnil => ?_, fun stride elementsPerStride hpair => ?_⟩
  · subst hnil
    have hfalse : isStrided op = some false := by simpa [hlen] using hstr
    obtain ⟨h1, h2⟩ := getStride_eq hfalse
    exact ⟨hfalse, h1, h2⟩
  · subst hpair
    have hlen3 : op.operands.length = base + 3 := hlen
    have htrue : isStrided op = some true := by simpa [hlen3] using hstr
    obtain ⟨h1, h2⟩ := getStride_eq htrue
    refine ⟨htrue, ?_, ?_⟩
    · rw [h1, if_pos rfl, show op.operands.length - 1 - 1 = base + 1 by omega, hread]
      rfl
    · rw [h2, if_pos rfl, show op.operands.length - 1 = base + 2 by omega, hread]
      rfl

/-- A built `affine.dma_start` with matching index counts gives back its memrefs, indices, number
of elements and stride, and the elements per stride only together with a stride. -/
theorem accessors_of_build {srcMap dstMap tagMap : AffineMap}
    {srcMemRef destMemRef tagMemRef numElements : Value}
    {srcIndices destIndices tagIndices : List Value} {stride elementsPerStride : Option Value}
    {inFunctionRegion : Bool}
    (h : build srcMemRef srcMap srcIndices destMemRef dstMap destIndices tagMemRef tagMap tagIndices
      numElements stride elementsPerStride inFunctionRegion = some op)
    (hsrc : srcIndices.length = srcMap.numInputs) (hdst : destIndices.length = dstMap.numInputs)
    (htag : tagIndices.length = tagMap.numInputs) :
    memRefRoles op =
        some [(srcMemRef, srcIndices), (destMemRef, destIndices), (tagMemRef, tagIndices)] ∧
      getNumElements op = some numElements ∧ getStride op = some stride ∧
      getNumElementsPerStride op = some (stride.bind fun _ => elementsPerStride) := by
  unfold build at h
  obtain ⟨strides, hstrides, h⟩ := Option.bind_eq_some.mp h
  have hkind : op.kind = .affineDmaStart := by cases h; rfl
  have hs : getSrcMap op = some srcMap := by cases h; rfl
  have hd : getDstMap op = some dstMap := by cases h; rfl
  have ht : getTagMap op = some tagMap := by cases h; rfl
  have hops : op.operands = srcMemRef :: srcIndices ++ destMemRef :: destIndices ++
      tagMemRef :: tagIndices ++ numElements :: strides := by cases h; rfl
  -- each memref and its indices, after the blocks before them
  have hsrcBlock : op.operands[0]? = some srcMemRef ∧
      operandRange op.operands 1 srcMap.numInputs = some srcIndices :=
    read_block (show op.operands = [] ++ srcMemRef :: srcIndices ++
      (destMemRef :: destIndices ++ tagMemRef :: tagIndices ++ numElements :: strides) by
        simp [hops]) rfl hsrc.symm
  have hdstBlock : op.operands[1 + srcMap.numInputs]? = some destMemRef ∧
      operandRange op.operands (1 + srcMap.numInputs + 1) dstMap.numInputs = some destIndices :=
    read_block (show op.operands = (srcMemRef :: srcIndices) ++ destMemRef :: destIndices ++
      (tagMemRef :: tagIndices ++ numElements :: strides) by simp [hops]) (by simp [hsrc]; omega)
      hdst.symm
  have htagBlock : op.operands[1 + srcMap.numInputs + 1 + dstMap.numInputs]? = some tagMemRef ∧
      operandRange op.operands (1 + srcMap.numInputs + 1 + dstMap.numInputs + 1)
        tagMap.numInputs = some tagIndices :=
    read_block hops (by simp [hsrc, hdst]; omega) htag.symm
  have hrest : op.operands.drop (1 + srcMap.numInputs + 1 + dstMap.numInputs + 1 +
      tagMap.numInputs) = numElements :: strides := by
    rw [hops]
    exact List.drop_left' (by simp [hsrc, hdst, htag]; omega)
  obtain ⟨hnum, hnil, hpair⟩ := trailing_of_drop hs hd ht hrest
  refine ⟨?_, hnum, ?_⟩
  · simp only [memRefRoles, hkind, getSrcMemRef, getSrcMemRefOperandIndex, hsrcBlock.1,
      getSrcIndices_eq hs, hsrcBlock.2, getDstMemRef_eq hs, hdstBlock.1, getDstIndices_eq hs hd,
      hdstBlock.2, getTagMemRef_eq hs hd, htagBlock.1, getTagIndices_eq hs hd ht, htagBlock.2,
      Option.bind_eq_bind, Option.some_bind, Option.pure_def]
  · cases stride with
    | none =>
      cases hstrides
      exact (hnil rfl).2
    | some stride =>
      cases elementsPerStride with
      | none => cases hstrides
      | some elementsPerStride =>
        cases hstrides
        exact (hpair _ _ rfl).2

/-- Built from its parts, `stridedCopy` gives them back. -/
theorem accessors_of_build_stridedCopy :
    build 0 ⟨1, 0, [.dim 0]⟩ [1] 2 ⟨1, 0, [.dim 0]⟩ [3] 4 ⟨0, 0, [.constant 0]⟩ [] 5 (some 6)
        (some 7) true = some stridedCopy ∧
      [1].length = (⟨1, 0, [.dim 0]⟩ : AffineMap).numInputs ∧
      [3].length = (⟨1, 0, [.dim 0]⟩ : AffineMap).numInputs ∧
      ([] : List Value).length = (⟨0, 0, [.constant 0]⟩ : AffineMap).numInputs ∧
      memRefRoles stridedCopy = some [(0, [1]), (2, [3]), (4, [])] ∧
      getNumElements stridedCopy = some 5 ∧ getStride stridedCopy = some (some 6) ∧
      getNumElementsPerStride stridedCopy = some (some 7) :=
  ⟨rfl, rfl, rfl, rfl, accessors_of_build rfl rfl rfl rfl⟩

end Layouts

end AffineDmaStartOp

end Mlir
