import Mathlib.Algebra.Order.Ring.Nat
import MlirCore.IR.Value
import MlirCore.IR.BlockOrder

/-!
# Operations with successors: creation and cloning

`Operation::create` takes a terminator's operands as one list in which a null value precedes each
successor's operands: the operands before the first sentinel are stored, then each sentinel opens
a count for the next successor. `getSuccessorOperandIndex` finds a successor's operands from the
end, and `cloneWithoutRegions` re-emits the sentinel list through a `BlockAndValueMapping`. A list
in sentinel form decodes into exactly its groups, cloning encodes them again through the mapper,
which then sends each result to the clone's; locations and contexts are left out.
-/

namespace Mlir

/-- An operation's name, with what its registration says: `isKnownNonTerminator` holds of a
registered operation without the terminator trait. -/
structure OperationName where
  name : String
  isKnownNonTerminator : Bool
  deriving Repr, DecidableEq

/-- A uniqued `Type`, by identity. -/
abbrev TypeId := Nat

/-- A `NamedAttribute`: the attribute's name and the uniqued attribute, by identity. -/
abbrev NamedAttribute := String × Nat

/-- The fields of an `Operation` that creation fills in. -/
structure Operation where
  name : OperationName
  operands : List Value
  results : List Value
  resultTypes : List TypeId
  attributes : List NamedAttribute
  successors : List BlockId
  /-- The trailing per-successor operand counts. -/
  successorOperandCounts : List Nat
  numRegions : Nat
  resizableOperandList : Bool
  deriving Repr, DecidableEq

/-! ## `Operation::create` -/

/-- The first loop of `create`: the operands before the first null sentinel, and the list from
that sentinel on. -/
def leadingOperands : List (Option Value) → List Value × List (Option Value)
  | [] => ([], [])
  | none :: rest => ([], none :: rest)
  | some v :: rest => let r := leadingOperands rest; (v :: r.1, r.2)

/-- The second loop of `create`: a sentinel asserts a successor is left and opens its count at
zero, an operand is stored and counted for the current one; every successor needs a sentinel. -/
def successorOperandsLoop (numSuccessors : Nat) :
    List (Option Value) → List Value → List Nat → Option (List Value × List Nat)
  | [], operands, counts =>
    if counts.length = numSuccessors then some (operands, counts) else none
  | none :: rest, operands, counts =>
    if counts.length < numSuccessors then
      successorOperandsLoop numSuccessors rest operands (counts ++ [0])
    else none
  | some v :: rest, operands, counts =>
    successorOperandsLoop numSuccessors rest (operands ++ [v]) (counts.modifyLast (· + 1))

/-- `Operation::create`; `none` where it asserts. A list with no sentinel makes an operation
without successors; one with a sentinel needs an operation that may be a terminator. -/
def create (name : OperationName) (operands : List (Option Value)) (resultTypes : List TypeId)
    (attributes : List NamedAttribute) (successors : List BlockId) (numRegions : Nat)
    (resizableOperandList : Bool) (newResult : Nat → Value) : Option Operation :=
  if successors.length ≠ 0 ∧ name.isKnownNonTerminator then none
  else
    let op : Operation := ⟨name, [], (List.range resultTypes.length).map newResult, resultTypes,
      attributes, [], [], numRegions, resizableOperandList⟩
    let (leading, rest) := leadingOperands operands
    match rest with
    | [] => if successors.length = 0 then some { op with operands := leading } else none
    | _ :: _ =>
      if name.isKnownNonTerminator then none
      else
        (successorOperandsLoop successors.length rest leading []).map fun (operands, counts) =>
          { op with operands, successors, successorOperandCounts := counts }

/-! ## Successor operands -/

namespace Operation

/-- `getNumOperands()`. -/
def getNumOperands (op : Operation) : Nat := op.operands.length

/-- Modelled from the spec: `hasSuccessors()`. -/
def hasSuccessors (op : Operation) : Bool := op.successors.length ≠ 0

/-- Modelled from the spec: `getSuccessor(index)`, asserting the index is in range. -/
def getSuccessor (op : Operation) (index : Nat) : Option BlockId := op.successors[index]?

/-- Modelled from the spec: `getNumSuccessorOperands(index)`, the count stored for successor
`index`. -/
def getNumSuccessorOperands (op : Operation) (index : Nat) : Nat :=
  op.successorOperandCounts.getD index 0

/-- `getSuccessorOperandIndex(index)`: the operand count less the operands of successor `index`
and every later successor. -/
def getSuccessorOperandIndex (op : Operation) (index : Nat) : Option Nat :=
  if !op.name.isKnownNonTerminator ∧ index < op.successors.length then
    some (op.getNumOperands - ((op.successorOperandCounts.drop index).take
      (op.successors.length - index)).sum)
  else none

/-- `getSuccessorOperands(index)`. -/
def getSuccessorOperands (op : Operation) (index : Nat) : Option (List Value) :=
  (op.getSuccessorOperandIndex index).map fun start =>
    (op.operands.drop start).take (op.getNumSuccessorOperands index)

/-- `getNonSuccessorOperands()`: the operands before the first successor's. -/
def getNonSuccessorOperands (op : Operation) : Option (List Value) :=
  if op.hasSuccessors then (op.getSuccessorOperandIndex 0).map op.operands.take
  else some op.operands

end Operation

/-! ## `cloneWithoutRegions` -/

/-- Modelled from the spec: `BlockAndValueMapping`, the substitution tables for values and
blocks. -/
structure BlockAndValueMapping where
  valueMap : Value → Option Value
  blockMap : BlockId → Option BlockId

namespace BlockAndValueMapping

/-- Modelled from the spec: `lookupOrDefault` on a value, the value itself when unmapped. -/
def lookupOrDefault (mapper : BlockAndValueMapping) (v : Value) : Value :=
  (mapper.valueMap v).getD v

/-- Modelled from the spec: `lookupOrDefault` on a block, the block itself when unmapped. -/
def lookupOrDefaultBlock (mapper : BlockAndValueMapping) (b : BlockId) : BlockId :=
  (mapper.blockMap b).getD b

/-- Modelled from the spec: `map(from, to)` records `to` for `from`, replacing what was there. -/
def map (mapper : BlockAndValueMapping) (src dst : Value) : BlockAndValueMapping :=
  { mapper with valueMap := Function.update mapper.valueMap src (some dst) }

end BlockAndValueMapping

namespace Operation

/-- The successor loop of `cloneWithoutRegions` over the successors `succs`: each pushes the
mapped successor, a sentinel, and its mapped operands. -/
def cloneSuccessors (op : Operation) (mapper : BlockAndValueMapping) :
    List Nat → Option (List (Option Value) × List BlockId)
  | [] => some ([], [])
  | succ :: succs => do
    let block ← op.getSuccessor succ
    let group ← op.getSuccessorOperands succ
    let (operands, successors) ← op.cloneSuccessors mapper succs
    some (none :: group.map (some ∘ mapper.lookupOrDefault) ++ operands,
      mapper.lookupOrDefaultBlock block :: successors)

/-- The operands and successors `cloneWithoutRegions` passes to `create`: every operand mapped,
or with successors the leading ones mapped, then the successor loop. -/
def cloneOperands (op : Operation) (mapper : BlockAndValueMapping) :
    Option (List (Option Value) × List BlockId) :=
  if op.successors.length = 0 then some (op.operands.map (some ∘ mapper.lookupOrDefault), [])
  else do
    let firstSuccOperand ← op.getSuccessorOperandIndex 0
    let (operands, successors) ← op.cloneSuccessors mapper (List.range op.successors.length)
    some ((op.operands.take firstSuccOperand).map (some ∘ mapper.lookupOrDefault) ++ operands,
      successors)

/-- The mapper after `cloneWithoutRegions` records result `i` of `op` to result `i` of the
copy. -/
def mapResults (op : Operation) (mapper : BlockAndValueMapping) (newOp : Operation) :
    BlockAndValueMapping :=
  (op.results.zip newOp.results).foldl (fun mapper r => mapper.map r.1 r.2) mapper

/-- `cloneWithoutRegions(mapper)`: create a copy with the remapped operands and successors and
no region bodies, then record its results in the mapper. -/
def cloneWithoutRegions (op : Operation) (mapper : BlockAndValueMapping) (newResult : Nat → Value) :
    Option (Operation × BlockAndValueMapping) := do
  let (operands, successors) ← op.cloneOperands mapper
  let newOp ← create op.name operands op.resultTypes op.attributes successors op.numRegions
    op.resizableOperandList newResult
  some (newOp, op.mapResults mapper newOp)

end Operation

/-! ## Decoding the sentinel form -/

/-- The sentinel form of successor operand groups: a null value before each group. -/
def encodeSuccessorOperands (groups : List (List Value)) : List (Option Value) :=
  groups.flatMap fun group => none :: group.map some

/-- The operand list `create` takes for non-successor operands `leading` and one operand
group per successor. -/
def encodeOperands (leading : List Value) (groups : List (List Value)) : List (Option Value) :=
  leading.map some ++ encodeSuccessorOperands groups

@[simp]
theorem encodeSuccessorOperands_nil : encodeSuccessorOperands [] = [] := rfl

theorem encodeSuccessorOperands_cons (group : List Value) (groups : List (List Value)) :
    encodeSuccessorOperands (group :: groups) =
      none :: (group.map some ++ encodeSuccessorOperands groups) := rfl

/-- The first loop stops at the first sentinel, after the non-successor operands. -/
theorem leadingOperands_encodeOperands (leading : List Value) (groups : List (List Value)) :
    leadingOperands (encodeOperands leading groups) = (leading, encodeSuccessorOperands groups) := by
  induction leading with
  | nil => cases groups <;> rfl
  | cons v leading ih => simp only [encodeOperands, List.map_cons, List.cons_append] at ih ⊢; rw [leadingOperands, ih]

/-- The operands of one group are stored and counted for the current successor. -/
theorem successorOperandsLoop_group (numSuccessors : Nat) (rest : List (Option Value)) :
    ∀ (group operands : List Value) (counts : List Nat) (k : Nat),
      successorOperandsLoop numSuccessors (group.map some ++ rest) operands (counts ++ [k]) =
        successorOperandsLoop numSuccessors rest (operands ++ group) (counts ++ [k + group.length])
  | [], _, _, _ => by simp
  | v :: group, operands, counts, k => by
    rw [List.map_cons, List.cons_append, successorOperandsLoop, List.modifyLast_append_one,
      successorOperandsLoop_group numSuccessors rest group]
    simp only [List.append_assoc, List.singleton_append, List.length_cons, Nat.add_right_comm k 1,
      Nat.add_assoc]

/-- From the first sentinel on, the second loop stores every group and writes one count per
successor, provided the sentinels match the successors. -/
theorem successorOperandsLoop_encode (numSuccessors : Nat) :
    ∀ (groups : List (List Value)) (operands : List Value) (counts : List Nat),
      counts.length + groups.length = numSuccessors →
      successorOperandsLoop numSuccessors (encodeSuccessorOperands groups) operands counts =
        some (operands ++ groups.flatten, counts ++ groups.map List.length)
  | [], _, _, h => by simp [successorOperandsLoop, ← h]
  | group :: groups, operands, counts, h => by
    simp only [List.length_cons] at h
    rw [encodeSuccessorOperands_cons, successorOperandsLoop, if_pos (by omega),
      successorOperandsLoop_group, successorOperandsLoop_encode numSuccessors groups _ _ (by simp; omega)]
    simp

/-- `create` on a list in sentinel form stores the non-successor operands and then every group,
and counts each group for its successor. -/
theorem create_encodeOperands {name : OperationName} {successors : List BlockId}
    (leading : List Value) (groups : List (List Value)) (resultTypes : List TypeId)
    (attributes : List NamedAttribute) (numRegions : Nat) (resizableOperandList : Bool)
    (newResult : Nat → Value) (hname : successors ≠ [] → name.isKnownNonTerminator = false)
    (hgroups : groups.length = successors.length) :
    create name (encodeOperands leading groups) resultTypes attributes successors numRegions
        resizableOperandList newResult =
      some ⟨name, leading ++ groups.flatten, (List.range resultTypes.length).map newResult,
        resultTypes, attributes, successors, groups.map List.length, numRegions,
        resizableOperandList⟩ := by
  simp only [create, leadingOperands_encodeOperands]
  cases groups with
  | nil =>
    obtain rfl : successors = [] := List.eq_nil_of_length_eq_zero hgroups.symm
    simp
  | cons group groups =>
    have hne : successors ≠ [] := List.ne_nil_of_length_pos (by simp [← hgroups])
    have hlen : successors.length ≠ 0 := fun h => hne (List.eq_nil_of_length_eq_zero h)
    simp [hname hne, successorOperandsLoop_encode successors.length (group :: groups) leading []
      (by simpa using hgroups)]
    rfl

example : (create ⟨"br", false⟩ (encodeOperands [1] [[2, 3], []]) [0] [] [7, 8] 0 false (· + 100)).map
    (·.successorOperandCounts) = some [2, 0] := rfl

/-- Group `i` of a flattened list sits after the groups before it. -/
theorem take_drop_flatten (groups : List (List Value)) {i : Nat} (hi : i < groups.length) :
    (groups.flatten.drop ((groups.take i).map List.length).sum).take groups[i].length = groups[i] := by
  have hsplit : groups.flatten = (groups.take i).flatten ++ (groups[i] ++ (groups.drop (i + 1)).flatten) := by
    rw [← List.flatten_cons, ← List.drop_eq_getElem_cons hi, ← List.flatten_append, List.take_append_drop]
  rw [hsplit, List.drop_left' (List.length_flatten _), List.take_left' rfl]

/-! ## The partition of an operation's operands -/

/-- `op`'s operands are `leading` followed by one group per successor, with the groups' lengths as
counts: `numOperands == Σ(per-successor operand counts) + numLeadingOperands`. -/
structure Operation.HasPartition (op : Operation) (leading : List Value)
    (groups : List (List Value)) : Prop where
  operands_eq : op.operands = leading ++ groups.flatten
  counts_eq : op.successorOperandCounts = groups.map List.length
  length_groups : groups.length = op.successors.length
  terminator : op.successors ≠ [] → op.name.isKnownNonTerminator = false

namespace Operation.HasPartition

variable {op : Operation} {leading : List Value} {groups : List (List Value)}

/-- The operand count is the non-successor operands plus every group. -/
theorem getNumOperands (hp : op.HasPartition leading groups) :
    op.getNumOperands = leading.length + (groups.map List.length).sum := by
  simp [Operation.getNumOperands, hp.operands_eq, List.length_flatten]

/-- Successor `index`'s operands start after the non-successor operands and the groups before
it; past the last successor the accessor asserts. -/
theorem getSuccessorOperandIndex (hp : op.HasPartition leading groups) (index : Nat) :
    op.getSuccessorOperandIndex index =
      if index < groups.length then some (leading.length + ((groups.take index).map List.length).sum)
      else none := by
  unfold Operation.getSuccessorOperandIndex
  rw [hp.counts_eq, ← hp.length_groups]
  split_ifs with h hi hi
  · have hsplit : (groups.map List.length).sum =
        ((groups.take index).map List.length).sum + ((groups.drop index).map List.length).sum := by
      simp only [← List.length_flatten, ← List.length_append, ← List.flatten_append,
        List.take_append_drop]
    rw [← List.map_drop, List.take_of_length_le (by simp), hp.getNumOperands]
    congr 1
    omega
  · exact absurd h.2 hi
  · exact absurd ⟨by simp [hp.terminator (List.ne_nil_of_length_pos (hp.length_groups ▸ Nat.zero_lt_of_lt hi))], hi⟩ h
  · rfl

/-- Successor `index`'s operands are its group. -/
theorem getSuccessorOperands (hp : op.HasPartition leading groups) (index : Nat) :
    op.getSuccessorOperands index = groups[index]? := by
  rw [Operation.getSuccessorOperands, hp.getSuccessorOperandIndex]
  split_ifs with hi
  · rw [Option.map_some', List.getElem?_eq_getElem hi, hp.operands_eq, List.drop_append,
      Operation.getNumSuccessorOperands, hp.counts_eq, List.getD_eq_getElem?_getD, List.getElem?_map,
      List.getElem?_eq_getElem hi, Option.map_some', Option.getD_some, take_drop_flatten groups hi]
  · rw [Option.map_none', List.getElem?_eq_none (by omega)]

/-- The non-successor operands are `leading`. -/
theorem getNonSuccessorOperands (hp : op.HasPartition leading groups) :
    op.getNonSuccessorOperands = some leading := by
  unfold Operation.getNonSuccessorOperands Operation.hasSuccessors
  have hlen := hp.length_groups
  split_ifs with hs
  · have hpos : 0 < groups.length := by simp only [decide_eq_true_eq] at hs; omega
    simp [hp.getSuccessorOperandIndex, hpos, hp.operands_eq]
  · simp only [decide_eq_true_eq, ne_eq, not_not] at hs
    simp [hp.operands_eq, List.eq_nil_of_length_eq_zero (hlen.trans hs)]

/-- From successor `k` on, the clone's successor loop emits each mapped successor, and each
group, mapped, after a sentinel. -/
theorem cloneSuccessors (hp : op.HasPartition leading groups) (mapper : BlockAndValueMapping) :
    ∀ (m k : Nat), k + m = groups.length →
      op.cloneSuccessors mapper (List.range' k m) =
        some (encodeSuccessorOperands ((groups.drop k).map (List.map mapper.lookupOrDefault)),
          (op.successors.drop k).map mapper.lookupOrDefaultBlock)
  | 0, k, h => by
    have hlen := hp.length_groups
    rw [List.drop_eq_nil_of_le (by omega), List.drop_eq_nil_of_le (by omega)]
    rfl
  | m + 1, k, h => by
    have hk : k < groups.length := by omega
    have hk' : k < op.successors.length := hp.length_groups ▸ hk
    rw [List.range'_succ, Operation.cloneSuccessors, Operation.getSuccessor, List.getElem?_eq_getElem hk',
      hp.getSuccessorOperands, List.getElem?_eq_getElem hk, cloneSuccessors hp mapper m (k + 1) (by omega),
      List.drop_eq_getElem_cons hk, List.drop_eq_getElem_cons hk']
    simp only [List.map_cons, encodeSuccessorOperands_cons, List.map_map]
    rfl

/-- The clone's operand list is the sentinel form of the mapped non-successor operands and
groups, and its successors are the mapped successors. -/
theorem cloneOperands (hp : op.HasPartition leading groups) (mapper : BlockAndValueMapping) :
    op.cloneOperands mapper =
      some (encodeOperands (leading.map mapper.lookupOrDefault) (groups.map (List.map mapper.lookupOrDefault)),
        op.successors.map mapper.lookupOrDefaultBlock) := by
  unfold Operation.cloneOperands
  have hlen := hp.length_groups
  split_ifs with hs
  · have hnil : groups = [] := List.eq_nil_of_length_eq_zero (hp.length_groups.trans hs)
    simp [hp.operands_eq, hnil, encodeOperands, List.eq_nil_of_length_eq_zero hs]
  · have hpos : 0 < groups.length := by omega
    rw [hp.getSuccessorOperandIndex, if_pos hpos, List.range_eq_range',
      hp.cloneSuccessors mapper _ 0 (by omega)]
    simp [encodeOperands, hp.operands_eq]

end Operation.HasPartition

/-! ## The mapper after cloning -/

namespace BlockAndValueMapping

/-- Recording pairs whose sources avoid `v` leaves `v`'s entry alone. -/
theorem foldl_map_valueMap_of_not_mem {v : Value} :
    ∀ (srcs dsts : List Value) (mapper : BlockAndValueMapping), v ∉ srcs →
      ((srcs.zip dsts).foldl (fun m r => m.map r.1 r.2) mapper).valueMap v = mapper.valueMap v
  | [], _, _, _ => rfl
  | _ :: _, [], _, _ => rfl
  | _ :: srcs, _ :: dsts, _, hv => by
    rw [List.zip_cons_cons, List.foldl_cons,
      foldl_map_valueMap_of_not_mem srcs dsts _ (List.not_mem_of_not_mem_cons hv)]
    exact Function.update_noteq (List.ne_of_not_mem_cons hv) _ _

/-- Recording distinct sources against as many targets sends source `i` to target `i`. -/
theorem foldl_map_lookupOrDefault :
    ∀ (srcs dsts : List Value) (mapper : BlockAndValueMapping), srcs.Nodup →
      srcs.length = dsts.length → ∀ i : Nat,
        srcs[i]?.map ((srcs.zip dsts).foldl (fun m r => m.map r.1 r.2) mapper).lookupOrDefault =
          dsts[i]?
  | [], [], _, _, _, _ => rfl
  | [], _ :: _, _, _, h, _ => absurd h (by simp)
  | _ :: _, [], _, _, h, _ => absurd h (by simp)
  | a :: srcs, b :: dsts, mapper, hn, hlen, i => by
    rw [List.nodup_cons] at hn
    cases i with
    | zero =>
      simp only [List.getElem?_cons_zero, Option.map_some', lookupOrDefault, List.zip_cons_cons,
        List.foldl_cons, foldl_map_valueMap_of_not_mem srcs dsts _ hn.1]
      simp [map]
    | succ i =>
      simpa using foldl_map_lookupOrDefault srcs dsts (mapper.map a b) hn.2 (by simpa using hlen) i

end BlockAndValueMapping

/-- Cloning an operation whose operands have a partition gives one whose operands have the
mapped partition, with the mapped successors and the new results. -/
theorem Operation.HasPartition.cloneWithoutRegions {op : Operation} {leading : List Value}
    {groups : List (List Value)} (hp : op.HasPartition leading groups) (mapper : BlockAndValueMapping)
    (newResult : Nat → Value) :
    ∃ clone, op.cloneWithoutRegions mapper newResult = some (clone, op.mapResults mapper clone) ∧
      clone.HasPartition (leading.map mapper.lookupOrDefault)
        (groups.map (List.map mapper.lookupOrDefault)) ∧
      clone.successors = op.successors.map mapper.lookupOrDefaultBlock ∧
      clone.results = (List.range op.resultTypes.length).map newResult := by
  have hname : op.successors.map mapper.lookupOrDefaultBlock ≠ [] → op.name.isKnownNonTerminator = false :=
    fun h => hp.terminator (by simpa using h)
  have hgroups : (groups.map (List.map mapper.lookupOrDefault)).length =
      (op.successors.map mapper.lookupOrDefaultBlock).length := by simp [hp.length_groups]
  refine ⟨⟨op.name, leading.map mapper.lookupOrDefault ++
      (groups.map (List.map mapper.lookupOrDefault)).flatten,
      (List.range op.resultTypes.length).map newResult, op.resultTypes, op.attributes,
      op.successors.map mapper.lookupOrDefaultBlock,
      (groups.map (List.map mapper.lookupOrDefault)).map List.length, op.numRegions,
      op.resizableOperandList⟩, ?_, ⟨rfl, rfl, hgroups, hname⟩, rfl, rfl⟩
  simp only [Operation.cloneWithoutRegions, hp.cloneOperands, Option.bind_eq_bind, Option.some_bind,
    create_encodeOperands _ _ _ _ _ _ _ hname hgroups]

/-- Successor operands round-trip: `create` on a sentinel list partitions the operands into its
groups, and `cloneWithoutRegions` gives the mapped partition and maps results to the clone's. -/
theorem successorOperands_roundTrip {name : OperationName} {successors : List BlockId}
    (leading : List Value) (groups : List (List Value)) (resultTypes : List TypeId)
    (attributes : List NamedAttribute) (numRegions : Nat) (resizableOperandList : Bool)
    (newResult : Nat → Value) (hname : successors ≠ [] → name.isKnownNonTerminator = false)
    (hgroups : groups.length = successors.length)
    (hresults : ((List.range resultTypes.length).map newResult).Nodup) :
    ∃ op, create name (encodeOperands leading groups) resultTypes attributes successors numRegions
        resizableOperandList newResult = some op ∧
      op.getNumOperands = leading.length + (groups.map List.length).sum ∧
      op.getNonSuccessorOperands = some leading ∧
      (∀ i : Nat, op.getSuccessor i = successors[i]? ∧ op.getSuccessorOperands i = groups[i]?) ∧
      ∀ (mapper : BlockAndValueMapping) (cloneResult : Nat → Value),
        op.cloneOperands mapper = some (encodeOperands (leading.map mapper.lookupOrDefault)
          (groups.map (List.map mapper.lookupOrDefault)), successors.map mapper.lookupOrDefaultBlock) ∧
        ∃ clone mapper', op.cloneWithoutRegions mapper cloneResult = some (clone, mapper') ∧
          clone.getNonSuccessorOperands = some (leading.map mapper.lookupOrDefault) ∧
          (∀ i : Nat, clone.getSuccessor i = successors[i]?.map mapper.lookupOrDefaultBlock ∧
            clone.getSuccessorOperands i = groups[i]?.map (List.map mapper.lookupOrDefault)) ∧
          ∀ i : Nat, op.results[i]?.map mapper'.lookupOrDefault = clone.results[i]? := by
  have hp : Operation.HasPartition ⟨name, leading ++ groups.flatten,
      (List.range resultTypes.length).map newResult, resultTypes, attributes, successors,
      groups.map List.length, numRegions, resizableOperandList⟩ leading groups :=
    ⟨rfl, rfl, hgroups, hname⟩
  refine ⟨_, create_encodeOperands leading groups resultTypes attributes numRegions
    resizableOperandList newResult hname hgroups, hp.getNumOperands, hp.getNonSuccessorOperands,
    fun i => ⟨rfl, hp.getSuccessorOperands i⟩, fun mapper cloneResult => ⟨hp.cloneOperands mapper, ?_⟩⟩
  obtain ⟨clone, hclone, hcp, hsucc, hres⟩ := hp.cloneWithoutRegions mapper cloneResult
  refine ⟨clone, _, hclone, hcp.getNonSuccessorOperands,
    fun i => ⟨by simp [Operation.getSuccessor, hsucc], by rw [hcp.getSuccessorOperands, List.getElem?_map]⟩,
    BlockAndValueMapping.foldl_map_lookupOrDefault _ _ mapper hresults (by simp [hres])⟩

/-- A branch with non-successor operand `1`, successor `7` taking `[2, 3]`, successor `8` taking
nothing, and one result. -/
theorem successorOperands_roundTrip_branch :
    ([7, 8] ≠ ([] : List BlockId) → (⟨"br", false⟩ : OperationName).isKnownNonTerminator = false) ∧
    [[2, 3], []].length = [7, 8].length ∧ ((List.range [0].length).map (· + 100)).Nodup ∧
    ∃ op, create ⟨"br", false⟩ (encodeOperands [1] [[2, 3], []]) [0] [] [7, 8] 0 false (· + 100) =
        some op ∧
      op.getNumOperands = [1].length + ([[2, 3], []].map List.length).sum ∧
      op.getNonSuccessorOperands = some [1] ∧
      (∀ i : Nat, op.getSuccessor i = [7, 8][i]? ∧ op.getSuccessorOperands i = [[2, 3], []][i]?) ∧
      ∀ (mapper : BlockAndValueMapping) (cloneResult : Nat → Value),
        op.cloneOperands mapper = some (encodeOperands ([1].map mapper.lookupOrDefault)
          ([[2, 3], []].map (List.map mapper.lookupOrDefault)), [7, 8].map mapper.lookupOrDefaultBlock) ∧
        ∃ clone mapper', op.cloneWithoutRegions mapper cloneResult = some (clone, mapper') ∧
          clone.getNonSuccessorOperands = some ([1].map mapper.lookupOrDefault) ∧
          (∀ i : Nat, clone.getSuccessor i = [7, 8][i]?.map mapper.lookupOrDefaultBlock ∧
            clone.getSuccessorOperands i = [[2, 3], []][i]?.map (List.map mapper.lookupOrDefault)) ∧
          ∀ i : Nat, op.results[i]?.map mapper'.lookupOrDefault = clone.results[i]? :=
  ⟨by decide, rfl, by decide, successorOperands_roundTrip [1] [[2, 3], []] [0] [] 0 false (· + 100)
    (by decide) rfl (by decide)⟩

end Mlir
