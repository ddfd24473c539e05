import MlirCore.Transforms.ReplaceMemRef
import MlirCore.Affine.Soundness

/-!
# Affine computation slices

`createAffineComputationSlice` gives an operation private copies of the `affine.apply`s that feed
it. It does nothing when every `affine.apply` reachable from its operands is its own; otherwise it
fully composes the identity map on its `affine.apply` operands and creates before it one
single-result `affine.apply` per composed result, which it reads instead. The new values are
appended, so old values keep theirs. When the function's `affine.apply`s are verified, well formed
and symbol-free, the operation reads the values it read before, and its new `affine.apply`s read
only leaves and are used by it alone.
-/

namespace Mlir

/-- `getReachableAffineApplyOps`, not in this repository: the `affine.apply` results reached from
`v` along `affine.apply` operands, in its worklist's depth-first preorder. -/
def IR.reachableAffineApplies (ir : IR) : Value → List Value :=
  ir.fold fun v applied => match applied with
    | some (_, reached) => v :: reached.flatten
    | none => []

/-- `opInst->setOperand(idx, newOperands[idx])` for every operand: the operation with identity
`opInst` reads `newOperands`. -/
def FuncBody.setOperands (s : FuncBody) (opInst : OpId) (newOperands : List Value) : FuncBody :=
  { s with ops := s.ops.map fun p =>
      if p.1 = opInst then (p.1, { p.2 with operands := newOperands }) else p }

/-- The new operands: an operand found among `subOperands`, at its first position `j`, becomes
the `j`-th slice result; the others stay. -/
def sliceOperands (subOperands sliceResults operands : List Value) : List Value :=
  operands.map fun v => match subOperands.findIdx? (· == v) with
    | some j => sliceResults.getD j v
    | none => v

/-- `createAffineComputationSlice` on `opInst`: the body and the created `affine.apply`s; `none`
where the source dereferences null or the value numbering rejects a new value. -/
def createAffineComputationSlice (s : FuncBody) (opInst : OpId) :
    Option (FuncBody × List OpId) := do
  let op ← s.find? opInst
  let subOperands := op.operands.filter fun v => (s.ir.affineApplyOf v).isSome
  let affineApplyOps := subOperands.flatMap s.ir.reachableAffineApplies
  if affineApplyOps.isEmpty then some (s, [])
  else if affineApplyOps.all fun v => (s.usesOf v).all (· == opInst) then some (s, [])
  else do
    let (composedMap, composedOpOperands) ←
      (fullyComposeAffineMapAndOperands s.ir (maxApplyHeight s.ir subOperands)
        (getMultiDimIdentityMap subOperands.length) subOperands).composed?
    let (s, sliceResults, sliceOps) ← createSingleResultApplies opInst op.inFunctionRegion
      composedMap.numDims composedMap.numSymbols composedOpOperands s composedMap.results
    some (s.setOperands opInst (sliceOperands subOperands sliceResults op.operands),
      sliceOps.map Prod.fst)

/-! ## Appending values -/

/-- An old value reads the same in a function whose values are extended. -/
theorem IR.info_of_extends {ir ir' : IR} {more : List ValueInfo}
    (hext : ir'.values = ir.values ++ more) {v : Value} (hv : v < ir.values.length) :
    ir'.info v = ir.info v := by
  simp only [IR.info, hext, List.getD_append _ _ _ _ hv]

/-- An old value keeps its definition. -/
theorem IR.affineApplyOf_of_extends {ir ir' : IR} {more : List ValueInfo}
    (hext : ir'.values = ir.values ++ more) {v : Value} (hv : v < ir.values.length) :
    ir'.affineApplyOf v = ir.affineApplyOf v := by
  simp only [IR.affineApplyOf, IR.info_of_extends hext hv]

/-- An old value of a function whose value list is extended reads the same definitions, so it
keeps its value. -/
theorem IR.valueOf_of_extends {ir ir' : IR} {more : List ValueInfo}
    (hext : ir'.values = ir.values ++ more) (σ : Value → Int) :
    ∀ v, v < ir.values.length → ir'.valueOf σ v = ir.valueOf σ v := by
  intro v
  induction v using Nat.strong_induction_on with
  | _ v ih =>
    intro hv
    have happ := IR.affineApplyOf_of_extends hext hv
    cases h : ir.affineApplyOf v with
    | none =>
      rw [IR.valueOf_of_affineApplyOf_none h, IR.valueOf_of_affineApplyOf_none (happ.trans h)]
    | some p =>
      obtain ⟨map, operands⟩ := p
      rw [IR.valueOf_of_affineApplyOf h, IR.valueOf_of_affineApplyOf (happ.trans h)]
      congr 2
      exact List.map_congr_left fun u hu =>
        have hlt := IR.lt_of_mem_affineApplyOf h hu
        ih u hlt (Nat.lt_trans hlt hv)

/-- No `affine.apply` is reachable from a value no `affine.apply` defines. -/
theorem IR.reachableAffineApplies_of_none {ir : IR} {v : Value} (h : ir.affineApplyOf v = none) :
    ir.reachableAffineApplies v = [] := by
  rw [IR.reachableAffineApplies, IR.fold_eq, h]
  rfl

/-- An `affine.apply` over values no `affine.apply` defines reaches only itself. -/
theorem IR.reachableAffineApplies_of_leaves {ir : IR} {v : Value} {map : AffineMap}
    {operands : List Value} (h : ir.affineApplyOf v = some (map, operands))
    (hleaves : ∀ u ∈ operands, ir.affineApplyOf u = none) : ir.reachableAffineApplies v = [v] := by
  rw [IR.reachableAffineApplies, IR.fold_eq, h]
  refine congrArg (v :: ·) (List.flatten_eq_nil_iff.mpr fun l hl => ?_)
  obtain ⟨u, hu, rfl⟩ := List.mem_map.mp hl
  exact IR.reachableAffineApplies_of_none (hleaves u hu)

/-- Appending the definition of a value whose `affine.apply` operands are old values keeps the
numbering. -/
theorem IR.ofValues_append_eq_some (ir : IR) {info : ValueInfo}
    (h : info.operandsPrecede ir.values.length) :
    ∃ ir', IR.ofValues (ir.values ++ [info]) = some ir' ∧ ir'.values = ir.values ++ [info] := by
  have hall : (List.range (ir.values ++ [info]).length).all
      (fun v => ((ir.values ++ [info]).getD v default).operandsPrecede v) = true := by
    rw [List.all_eq_true]
    intro v hv
    rw [List.mem_range, List.length_append, List.length_singleton] at hv
    rcases Nat.lt_succ_iff_lt_or_eq.mp hv with hv | rfl
    · rw [List.getD_append _ _ _ _ hv]
      exact List.all_eq_true.mp ir.operandsPrecede v (List.mem_range.mpr hv)
    · rw [List.getD_append_right _ _ _ _ le_rfl, Nat.sub_self]
      exact h
  exact ⟨_, dif_pos hall, rfl⟩

/-- Inserting an entry under a new key leaves every other key's entry in place. -/
theorem lookup_take_append_cons_drop {α : Type} (l : List (OpId × α)) (i : Nat) (x : OpId × α)
    {k : OpId} (hk : k ≠ x.1) : (l.take i ++ x :: l.drop i).lookup k = l.lookup k := by
  obtain ⟨key, a⟩ := x
  conv_rhs => rw [← List.take_append_drop i l]
  rw [List.lookup_append, List.lookup_append, List.lookup_cons, beq_false_of_ne hk]

/-- Updating the entry under one key: that key's entry is updated, every other key's stays. -/
theorem lookup_map_update {κ α : Type} [BEq κ] [LawfulBEq κ] [DecidableEq κ] (f : α → α)
    (k k' : κ) :
    ∀ (l : List (κ × α)), (l.map fun p => if p.1 = k then (p.1, f p.2) else p).lookup k' =
      (l.lookup k').map fun a => if k' = k then f a else a
  | [] => rfl
  | (key, a) :: l => by
    by_cases hkey : k' = key
    · subst hkey
      by_cases hk : k' = k <;> simp [hk]
    · have hne : (k' == key) = false := beq_false_of_ne hkey
      by_cases hk : key = k
      · subst hk
        simp [List.lookup_cons, hne, hkey, lookup_map_update f key k' l]
      · simp [hk, List.lookup_cons, hne, lookup_map_update f k k' l]

/-- An entry found under a key is in the list. -/
theorem mem_of_lookup_eq_some {α : Type} {k : OpId} {a : α} :
    ∀ {l : List (OpId × α)}, l.lookup k = some a → (k, a) ∈ l
  | [], h => by cases h
  | (key, b) :: l, h => by
    by_cases hk : k = key
    · subst hk
      simp only [List.lookup_cons_self, Option.some.injEq] at h
      simp [h]
    · simp only [List.lookup_cons, beq_false_of_ne hk] at h
      exact List.mem_cons_of_mem _ (mem_of_lookup_eq_some h)

namespace FuncBody

/-- `createOperation` of one result defined over old values appends the definition, takes the
next value and identity, and keeps every other identity's operation. -/
theorem createOperation_append (s : FuncBody) (before : OpId) (kind : OpKind)
    (operands : List Value) {info : ValueInfo} (attributes : List (String × AttrValue))
    (region : Bool) (h : info.operandsPrecede s.ir.values.length) :
    ∃ s', s.createOperation before kind operands [info] attributes region =
        some (s', s.nextOpId, [s.ir.values.length]) ∧ s'.ir.values = s.ir.values ++ [info] ∧
      s'.nextOpId = s.nextOpId + 1 ∧ ∀ k, k ≠ s.nextOpId → s'.find? k = s.find? k := by
  obtain ⟨ir', hir', hvalues⟩ := IR.ofValues_append_eq_some s.ir h
  let i := s.ops.findIdx (·.1 == before)
  refine ⟨⟨ir', s.ops.take i ++ (s.nextOpId, ⟨kind, operands, [s.ir.values.length], attributes,
    region⟩) :: s.ops.drop i, s.nextOpId + 1⟩, by simp [createOperation, hir', i]; rfl, hvalues,
    rfl, fun k hk => lookup_take_append_cons_drop s.ops _ _ hk⟩

/-- `createOperation` adds one operation, which reads `operands`, to the old ones. -/
theorem mem_ops_createOperation {s s' : FuncBody} {before id : OpId} {kind : OpKind}
    {operands results : List Value} {resultInfos : List ValueInfo}
    {attributes : List (String × AttrValue)} {region : Bool}
    (h : s.createOperation before kind operands resultInfos attributes region =
      some (s', id, results)) :
    ∀ p ∈ s'.ops, p ∈ s.ops ∨ p.2.operands = operands := by
  obtain ⟨ir, -, h⟩ := Option.bind_eq_some.mp h
  cases h
  intro p hp
  rcases List.mem_append.mp hp with hp | hp
  · exact .inl (List.mem_of_mem_take hp)
  · rcases List.mem_cons.mp hp with rfl | hp
    exacts [.inr rfl, .inl (List.mem_of_mem_drop hp)]

/-- The users of a value are the operations that read it. -/
theorem mem_usesOf {s : FuncBody} {v : Value} {k : OpId} :
    k ∈ s.usesOf v ↔ ∃ o, (k, o) ∈ s.ops ∧ v ∈ o.operands := by
  simp only [usesOf, List.mem_flatMap, List.mem_map, List.mem_filter, beq_iff_eq]
  constructor
  · rintro ⟨⟨k', o⟩, hp, u, ⟨hu, rfl⟩, rfl⟩
    exact ⟨o, hp, hu⟩
  · rintro ⟨o, hp, hv⟩
    exact ⟨(k, o), hp, v, ⟨hv, rfl⟩, rfl⟩

/-- Setting the operands of one operation changes that operation only. -/
theorem find?_setOperands (s : FuncBody) (opInst : OpId) (newOperands : List Value) (k : OpId) :
    (s.setOperands opInst newOperands).find? k =
      (s.find? k).map fun o => if k = opInst then { o with operands := newOperands } else o :=
  lookup_map_update (fun o : BodyOp => { o with operands := newOperands }) opInst k s.ops

/-- An operation after `setOperands` is the one set or was there before. -/
theorem mem_ops_setOperands {s : FuncBody} {opInst k : OpId} {newOperands : List Value}
    {o : BodyOp} (h : (k, o) ∈ (s.setOperands opInst newOperands).ops) :
    k = opInst ∨ (k, o) ∈ s.ops := by
  obtain ⟨p, hp, hpk⟩ := List.mem_map.mp h
  by_cases hkey : p.1 = opInst
  · rw [if_pos hkey] at hpk
    exact .inl ((Prod.mk.inj hpk).1 ▸ hkey)
  · rw [if_neg hkey] at hpk
    exact .inr (hpk ▸ hp)

/-- Setting operands keeps the values. -/
@[simp] theorem setOperands_ir (s : FuncBody) (opInst : OpId) (newOperands : List Value) :
    (s.setOperands opInst newOperands).ir = s.ir := rfl

end FuncBody

/-- The definition of one single-result `affine.apply` that `createSingleResultApplies` creates. -/
def singleResultApplyInfo (region : Bool) (numDims numSymbols : Nat) (operands : List Value)
    (e : AffineExpr) : ValueInfo :=
  ⟨true, region, some (.affineApply ⟨numDims, numSymbols, [e]⟩ operands)⟩

/-- `createSingleResultApplies` on old operands appends one `affine.apply` per expression, with
the next values as results, and keeps every old identity's operation. -/
theorem createSingleResultApplies_spec (before : OpId) (region : Bool) (numDims numSymbols : Nat)
    (operands : List Value) :
    ∀ (es : List AffineExpr) (s : FuncBody), (∀ v ∈ operands, v < s.ir.values.length) →
      ∃ s' created, createSingleResultApplies before region numDims numSymbols operands s es =
          some (s', (List.range es.length).map (s.ir.values.length + ·), created) ∧
        s'.ir.values = s.ir.values ++ es.map (singleResultApplyInfo region numDims numSymbols
          operands) ∧
        ∀ k < s.nextOpId, s'.find? k = s.find? k
  | [], s, _ => ⟨s, [], rfl, by simp, fun _ _ => rfl⟩
  | e :: es, s, hops => by
    have hpre : (singleResultApplyInfo region numDims numSymbols operands e).operandsPrecede
        s.ir.values.length := by
      simpa [singleResultApplyInfo, ValueInfo.operandsPrecede] using hops
    obtain ⟨s₁, hcreate, hvalues₁, hnext₁, hfind₁⟩ := @FuncBody.createOperation_append s before
      .affineApply operands ⟨true, region, some (.affineApply ⟨numDims, numSymbols, [e]⟩ operands)⟩
      [("map", .affineMap ⟨numDims, numSymbols, [e]⟩)] region hpre
    have hops₁ : ∀ v ∈ operands, v < s₁.ir.values.length := fun v hv => by
      rw [hvalues₁, List.length_append]
      exact Nat.lt_add_right _ (hops v hv)
    obtain ⟨s', created, hrest, hvalues', hfind'⟩ :=
      createSingleResultApplies_spec before region numDims numSymbols operands es s₁ hops₁
    have hresults : s.ir.values.length :: (List.range es.length).map (s₁.ir.values.length + ·) =
        (List.range (e :: es).length).map (s.ir.values.length + ·) := by
      simp [List.range_succ_eq_map, hvalues₁, Nat.add_assoc, Nat.add_comm 1]
    refine ⟨s', (s.nextOpId, s.ir.values.length) :: created, ?_, ?_, fun k hk => ?_⟩
    · simp [createSingleResultApplies, hcreate, hrest]
      exact hresults
    · simp [hvalues', hvalues₁, singleResultApplyInfo]
    · rw [hfind' k (hnext₁ ▸ Nat.lt_succ_of_lt hk), hfind₁ k (Nat.ne_of_lt hk)]

/-- Every operation after `createSingleResultApplies` was there before or is a new
`affine.apply`, which reads `operands`. -/
theorem createSingleResultApplies_mem_ops {before : OpId} {region : Bool}
    {numDims numSymbols : Nat} {operands : List Value} :
    ∀ {es : List AffineExpr} {s s' : FuncBody} {results : List Value}
      {created : List (OpId × Value)},
      createSingleResultApplies before region numDims numSymbols operands s es =
        some (s', results, created) → ∀ p ∈ s'.ops, p ∈ s.ops ∨ p.2.operands = operands
  | [], _, _, _, _, h => by cases h; exact fun p hp => .inl hp
  | _ :: _, _, _, _, _, h => by
    obtain ⟨⟨s₁, id, results₁⟩, hcreate, h⟩ := Option.bind_eq_some.mp h
    obtain ⟨v, -, h⟩ := Option.bind_eq_some.mp h
    obtain ⟨⟨s₂, vs, created₂⟩, hrest, h⟩ := Option.bind_eq_some.mp h
    cases h
    intro p hp
    exact (createSingleResultApplies_mem_ops hrest p hp).elim
      (FuncBody.mem_ops_createOperation hcreate p) .inr

/-! ## Values of the appended `affine.apply`s -/

section Appended

variable {ir ir' : IR} {region : Bool} {numDims numSymbols : Nat} {operands : List Value}
  {es : List AffineExpr}

/-- The `j`-th appended value is the `affine.apply` of the `j`-th expression. -/
theorem IR.affineApplyOf_appended
    (hext : ir'.values = ir.values ++ es.map (singleResultApplyInfo region numDims numSymbols
      operands)) (j : Nat) :
    ir'.affineApplyOf (ir.values.length + j) =
      es[j]?.map fun e => (⟨numDims, numSymbols, [e]⟩, operands) := by
  simp only [IR.affineApplyOf, IR.info, hext,
    List.getD_append_right _ _ _ _ (Nat.le_add_right _ _), Nat.add_sub_cancel_left,
    List.getD_eq_getElem?_getD, List.getElem?_map]
  cases es[j]? <;> rfl

/-- Below the number of expressions, the `j`-th appended value is an `affine.apply`. -/
theorem IR.affineApplyOf_appended_of_lt
    (hext : ir'.values = ir.values ++ es.map (singleResultApplyInfo region numDims numSymbols
      operands)) {j : Nat} (hj : j < es.length) :
    ir'.affineApplyOf (ir.values.length + j) = some (⟨numDims, numSymbols, [es[j]]⟩, operands) := by
  rw [IR.affineApplyOf_appended hext, List.getElem?_eq_getElem hj, Option.map_some']

/-- The `j`-th appended value takes the `j`-th result of the map of all the expressions on the
old operands' values. -/
theorem IR.valueOf_appended
    (hext : ir'.values = ir.values ++ es.map (singleResultApplyInfo region numDims numSymbols
      operands))
    (hops : ∀ u ∈ operands, u < ir.values.length) (σ : Value → Int) {j : Nat}
    (hj : j < es.length) :
    ir'.valueOf σ (ir.values.length + j) =
      ((⟨numDims, numSymbols, es⟩ : AffineMap).evalOn (operands.map (ir.valueOf σ))).getD j 0 := by
  have happ := IR.affineApplyOf_appended_of_lt hext hj
  have hold : operands.map (ir'.valueOf σ) = operands.map (ir.valueOf σ) :=
    List.map_congr_left fun u hu => IR.valueOf_of_extends hext σ u (hops u hu)
  rw [IR.valueOf_of_affineApplyOf happ, hold]
  simp [AffineMap.evalOn, List.getD_eq_getElem?_getD, hj]

end Appended

/-! ## The identity map -/

/-- The identity map is well formed. -/
theorem isWellFormed_getMultiDimIdentityMap (n : Nat) :
    (getMultiDimIdentityMap n).isWellFormed := by
  simp [AffineMap.isWellFormed, getMultiDimIdentityMap, AffineExpr.isValidIn]

/-- The identity map returns its operands. -/
theorem evalOn_getMultiDimIdentityMap {n : Nat} {values : List Int} (h : values.length = n) :
    (getMultiDimIdentityMap n).evalOn values = values :=
  List.ext_getElem (by simp [AffineMap.evalOn, getMultiDimIdentityMap, h]) fun i _ hi => by
    simp [AffineMap.evalOn, getMultiDimIdentityMap, AffineExpr.eval, List.getD_eq_getElem?_getD,
      List.getElem?_eq_getElem hi]

/-! ## The new operands -/

/-- The operation's new operands take the values of its old ones when the `j`-th slice result
takes the value of the `j`-th sliced operand and every old operand keeps its value. -/
theorem map_sliceOperands {f g : Value → Int} {subOperands operands : List Value} {first : Value}
    (hresults : ∀ j (hj : j < subOperands.length), f (first + j) = g subOperands[j])
    (hkeep : ∀ v ∈ operands, f v = g v) :
    (sliceOperands subOperands ((List.range subOperands.length).map (first + ·)) operands).map f =
      operands.map g := by
  simp only [sliceOperands, List.map_map]
  refine List.map_congr_left fun v hv => ?_
  simp only [Function.comp]
  split
  · rename_i j hfound
    obtain ⟨hj, heq, -⟩ := List.findIdx?_eq_some_iff_getElem.mp hfound
    rw [List.getD_eq_getElem _ _ (by simpa using hj), List.getElem_map, List.getElem_range,
      hresults j hj, eq_of_beq heq]
  · exact hkeep v hv

/-- An operand after the slice is an old operand that was not sliced, or a slice result. -/
theorem mem_sliceOperands {subOperands operands : List Value} {first v : Value}
    (hv : v ∈ sliceOperands subOperands ((List.range subOperands.length).map (first + ·))
      operands) :
    (v ∈ operands ∧ v ∉ subOperands) ∨ ∃ j < subOperands.length, v = first + j := by
  obtain ⟨u, hu, rfl⟩ := List.mem_map.mp hv
  split
  · rename_i j hfound
    obtain ⟨hj, -, -⟩ := List.findIdx?_eq_some_iff_getElem.mp hfound
    exact .inr ⟨j, hj, by rw [List.getD_eq_getElem _ _ (by simpa using hj), List.getElem_map,
      List.getElem_range]⟩
  · rename_i hnone
    exact .inl ⟨hu, fun hmem => by simpa using List.findIdx?_eq_none_iff.mp hnone u hmem⟩

/-! ## The slice keeps values -/

/-- What a slice keeps: old values, new `affine.apply`s over leaves, other operations, and the
operation up to operands that take the old operands' values. -/
structure SliceKeeps (s : FuncBody) (opInst : OpId) (op : BodyOp) (s' : FuncBody) : Prop where
  oldValues : ∀ σ v, v < s.ir.values.length → s'.ir.valueOf σ v = s.ir.valueOf σ v
  newAppliesReadLeaves : ∀ v map operands, s.ir.values.length ≤ v →
    s'.ir.affineApplyOf v = some (map, operands) → ∀ u ∈ operands, s.ir.affineApplyOf u = none
  otherOps : ∀ k, k ≠ opInst → k < s.nextOpId → s'.find? k = s.find? k
  sliced : ∃ operands', s'.find? opInst = some { op with operands := operands' } ∧
    ∀ σ, operands'.map (s'.ir.valueOf σ) = op.operands.map (s.ir.valueOf σ)

/-- Leaving the body as it is keeps everything. -/
theorem SliceKeeps.refl {s : FuncBody} {opInst : OpId} {op : BodyOp}
    (hop : s.find? opInst = some op) : SliceKeeps s opInst op s :=
  ⟨fun _ _ _ => rfl,
    fun _ _ _ hv happ => absurd (IR.lt_length_of_affineApplyOf happ) (Nat.not_lt.mpr hv),
    fun _ _ _ => rfl, op.operands, hop, fun _ => rfl⟩

/-- Every operation reads values the function defines. -/
def FuncBody.OperandsDefined (s : FuncBody) : Prop :=
  ∀ p ∈ s.ops, ∀ v ∈ p.2.operands, v < s.ir.values.length

instance (s : FuncBody) : Decidable s.OperandsDefined :=
  inferInstanceAs (Decidable (∀ p ∈ s.ops, ∀ v ∈ p.2.operands, v < s.ir.values.length))

/-- Every `affine.apply` reachable from the operation's `affine.apply` operands is used by the
operation `opInst` alone: the condition under which the slice does nothing. -/
def FuncBody.AppliesLocalTo (s : FuncBody) (opInst : OpId) (op : BodyOp) : Prop :=
  ∀ v ∈ (op.operands.filter fun v => (s.ir.affineApplyOf v).isSome).flatMap
    s.ir.reachableAffineApplies, ∀ k ∈ s.usesOf v, k = opInst

/-- The source's test of private `affine.apply`s decides `AppliesLocalTo`. -/
theorem FuncBody.appliesLocalTo_iff {s : FuncBody} {opInst : OpId} {op : BodyOp} :
    s.AppliesLocalTo opInst op ↔
      ((op.operands.filter fun v => (s.ir.affineApplyOf v).isSome).flatMap
        s.ir.reachableAffineApplies).all (fun v => (s.usesOf v).all (· == opInst)) = true := by
  simp only [AppliesLocalTo, List.all_eq_true, beq_iff_eq]

instance (s : FuncBody) (opInst : OpId) (op : BodyOp) : Decidable (s.AppliesLocalTo opInst op) :=
  decidable_of_iff _ FuncBody.appliesLocalTo_iff.symm

section Slice

variable {s s₁ : FuncBody} {opInst : OpId} {op : BodyOp} {map' : AffineMap}
  {operands' : List Value}

/-- After the slice, the operation reads its new operands. -/
theorem find?_setOperands_sliced (hfresh : s.Fresh) (hop : s.find? opInst = some op)
    (hfind : ∀ k < s.nextOpId, s₁.find? k = s.find? k) (newOperands : List Value) :
    (s₁.setOperands opInst newOperands).find? opInst =
      some { op with operands := newOperands } := by
  rw [FuncBody.find?_setOperands, hfind opInst (hfresh _ (mem_of_lookup_eq_some hop)), hop]
  simp

/-- The slice built from a full composition of the identity map on the sliced operands: the
appended `affine.apply`s take the sliced operands' values and the operation reads them. -/
theorem SliceKeeps.of_composed (hfresh : s.Fresh) (hop : s.find? opInst = some op)
    (hdefined : ∀ v ∈ op.operands, v < s.ir.values.length)
    (hlen : map'.results.length =
      (op.operands.filter fun v => (s.ir.affineApplyOf v).isSome).length)
    (hleaves : ∀ v ∈ operands', s.ir.affineApplyOf v = none)
    (heval : ∀ σ, map'.evalOn (operands'.map σ) =
      (op.operands.filter fun v => (s.ir.affineApplyOf v).isSome).map (s.ir.valueOf σ))
    (hops' : ∀ v ∈ operands', v < s.ir.values.length)
    (hvalues : s₁.ir.values = s.ir.values ++ map'.results.map (singleResultApplyInfo
      op.inFunctionRegion map'.numDims map'.numSymbols operands'))
    (hfind : ∀ k < s.nextOpId, s₁.find? k = s.find? k) :
    SliceKeeps s opInst op (s₁.setOperands opInst (sliceOperands
      (op.operands.filter fun v => (s.ir.affineApplyOf v).isSome)
      ((List.range map'.results.length).map (s.ir.values.length + ·)) op.operands)) := by
  refine ⟨IR.valueOf_of_extends hvalues, fun v m ops hv happ u hu => ?_, fun k hk hlt => ?_, _,
    find?_setOperands_sliced hfresh hop hfind _, fun σ => ?_⟩
  · obtain ⟨j, rfl⟩ : ∃ j, v = s.ir.values.length + j := ⟨v - s.ir.values.length, by omega⟩
    rw [FuncBody.setOperands_ir, IR.affineApplyOf_appended hvalues] at happ
    obtain ⟨e, -, he⟩ := Option.map_eq_some'.mp happ
    rw [← (Prod.mk.inj he).2] at hu
    exact hleaves u hu
  · rw [FuncBody.find?_setOperands, hfind k hlt]
    simp [hk]
  · rw [FuncBody.setOperands_ir, hlen]
    refine map_sliceOperands (fun j hj => ?_) fun v hv => IR.valueOf_of_extends hvalues σ v
      (hdefined v hv)
    have hleafv : operands'.map (s.ir.valueOf σ) = operands'.map σ :=
      List.map_congr_left fun u hu => IR.valueOf_of_affineApplyOf_none (hleaves u hu)
    rw [IR.valueOf_appended hvalues hops' σ (hlen ▸ hj), hleafv]
    change (map'.evalOn _).getD j 0 = _
    simp [heval σ, List.getD_eq_getElem?_getD, hj]

/-- An operand of the sliced operation that an `affine.apply` defines is a new value. -/
theorem sliceOperands_new_of_affineApply (hdefined : ∀ v ∈ op.operands, v < s.ir.values.length)
    (hlen : map'.results.length =
      (op.operands.filter fun v => (s.ir.affineApplyOf v).isSome).length)
    (hvalues : s₁.ir.values = s.ir.values ++ map'.results.map (singleResultApplyInfo
      op.inFunctionRegion map'.numDims map'.numSymbols operands')) {v : Value}
    (hv : v ∈ sliceOperands (op.operands.filter fun v => (s.ir.affineApplyOf v).isSome)
      ((List.range map'.results.length).map (s.ir.values.length + ·)) op.operands)
    (happ : (s₁.ir.affineApplyOf v).isSome) :
    ∃ j < map'.results.length, v = s.ir.values.length + j := by
  rw [hlen] at hv ⊢
  rcases mem_sliceOperands hv with ⟨hold, hnot⟩ | hnew
  · rw [IR.affineApplyOf_of_extends hvalues (hdefined v hold)] at happ
    exact absurd (List.mem_filter.mpr ⟨hold, happ⟩) hnot
  · exact hnew

/-- A new `affine.apply` reads old leaves, so it reaches itself alone, and only the sliced
operation uses it when every old operation reads defined values. -/
theorem appliesLocalTo_of_composed (hdefined : ∀ v ∈ op.operands, v < s.ir.values.length)
    (hlen : map'.results.length =
      (op.operands.filter fun v => (s.ir.affineApplyOf v).isSome).length)
    (hleaves : ∀ v ∈ operands', s.ir.affineApplyOf v = none)
    (hops' : ∀ v ∈ operands', v < s.ir.values.length)
    (hvalues : s₁.ir.values = s.ir.values ++ map'.results.map (singleResultApplyInfo
      op.inFunctionRegion map'.numDims map'.numSymbols operands'))
    (hmem : ∀ p ∈ s₁.ops, p ∈ s.ops ∨ p.2.operands = operands') (hall : s.OperandsDefined) :
    (s₁.setOperands opInst (sliceOperands
      (op.operands.filter fun v => (s.ir.affineApplyOf v).isSome)
      ((List.range map'.results.length).map (s.ir.values.length + ·)) op.operands)).AppliesLocalTo
      opInst { op with operands := (sliceOperands
        (op.operands.filter fun v => (s.ir.affineApplyOf v).isSome)
        ((List.range map'.results.length).map (s.ir.values.length + ·)) op.operands) } := by
  intro v hv k hk
  simp only [FuncBody.setOperands_ir, List.mem_flatMap, List.mem_filter] at hv
  obtain ⟨u, ⟨hu, happ⟩, hreach⟩ := hv
  obtain ⟨j, hj, rfl⟩ := sliceOperands_new_of_affineApply hdefined hlen hvalues hu happ
  -- the new `affine.apply` reads old leaves, so it reaches only itself
  rw [IR.reachableAffineApplies_of_leaves (IR.affineApplyOf_appended_of_lt hvalues hj)
    fun w hw => (IR.affineApplyOf_of_extends hvalues (hops' w hw)).trans (hleaves w hw)] at hreach
  obtain rfl := List.mem_singleton.mp hreach
  -- no old operation and no new `affine.apply` reads a new value
  obtain ⟨o, hko, hvo⟩ := FuncBody.mem_usesOf.mp hk
  refine (FuncBody.mem_ops_setOperands hko).resolve_right fun hold => ?_
  have hlt : s.ir.values.length + j < s.ir.values.length :=
    (hmem _ hold).elim (fun hold => hall _ hold _ hvo) fun hread => hops' _ (hread ▸ hvo)
  omega

end Slice

/-- On a body whose `affine.apply`s are verified, well formed and symbol-free, the slice keeps
values, is a no-op exactly when they are private, and else reads new ones used by it alone. -/
theorem createAffineComputationSlice_keeps_values {s : FuncBody} {opInst : OpId} {op : BodyOp}
    (hir : s.ir.affineAppliesVerified) (hwfs : s.ir.affineApplyMapsWellFormed)
    (hfree : s.ir.affineAppliesSymbolFree) (hfresh : s.Fresh) (hop : s.find? opInst = some op)
    (hdefined : ∀ v ∈ op.operands, v < s.ir.values.length) :
    ∃ s' created, createAffineComputationSlice s opInst = some (s', created) ∧
      SliceKeeps s opInst op s' ∧ (s.AppliesLocalTo opInst op → s' = s) ∧
      (¬ s.AppliesLocalTo opInst op → ∀ op', s'.find? opInst = some op' →
        ∀ v ∈ op'.operands, (s'.ir.affineApplyOf v).isSome → s.ir.values.length ≤ v) ∧
      (s.OperandsDefined → ∀ op', s'.find? opInst = some op' → s'.AppliesLocalTo opInst op') := by
  have hsame : ∀ op', s.find? opInst = some op' → op' = op := fun _ h =>
    Option.some.inj (h.symm.trans hop)
  unfold createAffineComputationSlice
  simp only [hop, Option.bind_eq_bind, Option.some_bind]
  split_ifs with hempty hprivate
  · have hlocal : s.AppliesLocalTo opInst op := by
      simp [FuncBody.AppliesLocalTo, List.isEmpty_iff.mp hempty]
    exact ⟨s, [], rfl, SliceKeeps.refl hop, fun _ => rfl, (absurd hlocal ·),
      fun _ op' h => hsame op' h ▸ hlocal⟩
  · have hlocal : s.AppliesLocalTo opInst op := FuncBody.appliesLocalTo_iff.mpr hprivate
    exact ⟨s, [], rfl, SliceKeeps.refl hop, fun _ => rfl, (absurd hlocal ·),
      fun _ op' h => hsame op' h ▸ hlocal⟩
  · have hshared : ¬ s.AppliesLocalTo opInst op := mt FuncBody.appliesLocalTo_iff.mp hprivate
    obtain ⟨map', operands', hfull, hlen, -, -, hleaves, heval⟩ :=
      fullyComposeAffineMapAndOperands_spec_of_symbolFree hir hwfs hfree
        (maxApplyHeight s.ir (op.operands.filter fun v => (s.ir.affineApplyOf v).isSome))
        (isWellFormed_getMultiDimIdentityMap _) (Nat.add_zero _).symm le_rfl
    have hops' : ∀ v ∈ operands', v < s.ir.values.length := fun v hv => by
      rcases (hleaves v hv).2 with hmem | ⟨t, m, ops, ht, hmem⟩
      · exact hdefined v (List.mem_of_mem_filter hmem)
      · exact (IR.lt_of_mem_affineApplyOf ht hmem).trans (IR.lt_length_of_affineApplyOf ht)
    obtain ⟨s₁, created, hcreate, hvalues, hfind⟩ := createSingleResultApplies_spec opInst
      op.inFunctionRegion map'.numDims map'.numSymbols operands' map'.results s hops'
    simp only [getMultiDimIdentityMap, List.length_map, List.length_range] at hlen
    have hleaves' : ∀ v ∈ operands', s.ir.affineApplyOf v = none := fun v hv => (hleaves v hv).1
    have hsliced := find?_setOperands_sliced hfresh hop hfind (sliceOperands
      (op.operands.filter fun v => (s.ir.affineApplyOf v).isSome)
      ((List.range map'.results.length).map (s.ir.values.length + ·)) op.operands)
    simp only [hfull, FullyComposeOutcome.composed?, hcreate, Option.some_bind]
    refine ⟨_, _, rfl, SliceKeeps.of_composed hfresh hop hdefined hlen hleaves' (fun σ => by
      rw [heval σ, evalOn_getMultiDimIdentityMap (List.length_map _ _)]) hops' hvalues hfind,
      (absurd · hshared), fun _ op' h v hv happ => ?_, fun hall op' h => ?_⟩
    · obtain rfl := Option.some.inj (h.symm.trans hsliced)
      obtain ⟨j, -, rfl⟩ := sliceOperands_new_of_affineApply hdefined hlen hvalues hv happ
      exact Nat.le_add_right _ _
    · obtain rfl := Option.some.inj (h.symm.trans hsliced)
      exact appliesLocalTo_of_composed hdefined hlen hleaves' hops' hvalues
        (createSingleResultApplies_mem_ops hcreate) hall

/-- An argument `%i`, a value `%x` and `%a = affine.apply (d0) -> (d0 mod 2) (%i)` (values 0-2),
read by `send(%a, %x)` and by `compute(%a)`. -/
def sendCompute : FuncBody :=
  ⟨⟨[⟨true, false, none⟩, ⟨false, true, none⟩,
      ⟨true, false, some (.affineApply ⟨1, 0, [.binary .mod (.dim 0) (.constant 2)]⟩ [0])⟩],
      by decide⟩,
    [(0, ⟨.affineApply, [0], [2],
        [("map", .affineMap ⟨1, 0, [.binary .mod (.dim 0) (.constant 2)]⟩)], false⟩),
      (1, ⟨.other "send", [2, 1], [], [], false⟩),
      (2, ⟨.other "compute", [2], [], [], false⟩)], 3⟩

/-- `%a` is shared with `send`, so slicing `compute(%a)` gives it a private copy of `%a`, and it
reads the same value. -/
theorem createAffineComputationSlice_keeps_values_sendCompute :
    sendCompute.ir.affineAppliesVerified ∧ sendCompute.ir.affineApplyMapsWellFormed ∧
      sendCompute.ir.affineAppliesSymbolFree ∧ sendCompute.Fresh ∧
      sendCompute.find? 2 = some ⟨.other "compute", [2], [], [], false⟩ ∧
      (∀ v ∈ [2], v < sendCompute.ir.values.length) ∧ sendCompute.OperandsDefined ∧
      ¬ sendCompute.AppliesLocalTo 2 ⟨.other "compute", [2], [], [], false⟩ ∧
      ∃ s' created, createAffineComputationSlice sendCompute 2 = some (s', created) ∧
        SliceKeeps sendCompute 2 ⟨.other "compute", [2], [], [], false⟩ s' ∧
        (sendCompute.AppliesLocalTo 2 ⟨.other "compute", [2], [], [], false⟩ → s' = sendCompute) ∧
        (¬ sendCompute.AppliesLocalTo 2 ⟨.other "compute", [2], [], [], false⟩ →
          ∀ op', s'.find? 2 = some op' → ∀ v ∈ op'.operands, (s'.ir.affineApplyOf v).isSome →
            sendCompute.ir.values.length ≤ v) ∧
        (sendCompute.OperandsDefined → ∀ op', s'.find? 2 = some op' → s'.AppliesLocalTo 2 op') :=
  ⟨by decide, by decide, by decide, by decide, rfl, by decide, by decide, by decide,
    createAffineComputationSlice_keeps_values (by decide) (by decide) (by decide) (by decide) rfl
      (by decide)⟩

end Mlir
