import MlirCore.Transforms.ComputationSlice
import MlirCore.Transforms.MemoryOps

/-!
# The replacement of a memory operation reads the remapped location

A replacement applies the old map to the old map operands through temporary `affine.apply`s,
remaps the results and extra operands through `indexRemap`, puts the extra indices in front,
composes the identity map on these down to the leaves and creates the new operation. On a
function ready for composition (`IR.ComposeReady`), with symbol-free maps, valid-dim old map and
extra operands and old results not of `index` type, the new operation reads `newMemRef` at the
extra indices followed by the remapped old access (`replaceUser_remaps_access`). Each stage has
its own lemma: `applyMapResults_spec`, `newMapOperandsFor_spec`, `composeNewMap_spec`.
-/

namespace Mlir

/-! ## Functions ready for composition -/

/-- What composition needs to keep values: every `affine.apply` of the function is verified,
carries a well-formed map and has no symbols. -/
structure IR.ComposeReady (ir : IR) : Prop where
  verified : ir.affineAppliesVerified
  wellFormed : ir.affineApplyMapsWellFormed
  symbolFree : ir.affineAppliesSymbolFree

/-- What the new indices are for, in the source's comments: the extra indices, then `indexRemap`
of the extra operands and the old indices, or these themselves when there is no remapping. -/
def ReplaceArgs.remapAccess (a : ReplaceArgs) (value : Value → Int) (oldAccess : List Int) :
    List Int :=
  a.extraIndices.map value ++
    match a.indexRemap with
    | some indexRemap => indexRemap.evalOn (a.extraOperands.map value ++ oldAccess)
    | none => a.extraOperands.map value ++ oldAccess

/-- A value past the end of the function reads as nothing: no `index` type, no definition. -/
theorem IR.info_of_length_le {ir : IR} {v : Value} (hv : ir.values.length ≤ v) :
    ir.info v = default :=
  List.getD_eq_default _ _ hv

/-- A valid dim is a value of the function. -/
theorem lt_length_of_isValidDim {ir : IR} {v : Value} (h : isValidDim ir v) :
    v < ir.values.length := by
  by_contra hv
  have hidx := isIndex_of_isValidDim h
  rw [IR.info_of_length_le (Nat.le_of_not_lt hv)] at hidx
  cases hidx

/-- The source's `isValidDim`, one level deep: an `index` block argument, a value defined in a
function body, a constant, an `affine.apply` of valid dims, or a top-level memref's `dim`. -/
theorem isValidDim_iff {ir : IR} {v : Value} :
    isValidDim ir v ↔ (ir.info v).isIndex ∧
      ((ir.info v).definingOp = none ∨ (ir.info v).inFunctionRegion ∨
        (ir.info v).definingOp = some .constant ∨
        (∃ map operands, ir.affineApplyOf v = some (map, operands) ∧
          ∀ u ∈ operands, isValidDim ir u) ∨
        ∃ memref, (ir.info v).definingOp = some (.dim memref) ∧ isTopLevelSymbol ir memref) := by
  rw [isValidDim_eq, isValidDimAt, IR.affineApplyOf]
  cases h : (ir.info v).definingOp with
  | none => simp
  | some op => cases op <;> simp [and_assoc]

section Extends

variable {ir ir' : IR} {more : List ValueInfo}

/-- A valid dim stays valid when values are appended. -/
theorem isValidDim_of_extends (hext : ir'.values = ir.values ++ more) :
    ∀ v, isValidDim ir v → isValidDim ir' v := by
  intro v
  induction v using Nat.strong_induction_on with
  | _ v ih =>
    intro h
    have hv := lt_length_of_isValidDim h
    rw [isValidDim_iff] at h ⊢
    rw [IR.info_of_extends hext hv, IR.affineApplyOf_of_extends hext hv]
    obtain ⟨hidx, hdef | hregion | hconst | ⟨map, operands, happ, hops⟩ | ⟨memref, hdim, htop⟩⟩ :=
      h
    · exact ⟨hidx, .inl hdef⟩
    · exact ⟨hidx, .inr (.inl hregion)⟩
    · exact ⟨hidx, .inr (.inr (.inl hconst))⟩
    · exact ⟨hidx, .inr (.inr (.inr (.inl ⟨map, operands, happ,
        fun u hu => ih u (IR.lt_of_mem_affineApplyOf happ hu) (hops u hu)⟩)))⟩
    · -- a top-level memref is a value of the function
      have hmem : memref < ir.values.length := by
        by_contra hm
        simp [isTopLevelSymbol, IR.info_of_length_le (Nat.le_of_not_lt hm)] at htop
      refine ⟨hidx, .inr (.inr (.inr (.inr ⟨memref, hdim, ?_⟩)))⟩
      simpa only [isTopLevelSymbol, IR.info_of_extends hext hmem] using htop

/-- A verified `affine.apply` without symbols stays verified in a function where its operands keep
their `index` type and valid dims stay valid. -/
theorem verifyAffineApply_of_forward {ir ir' : IR} {map : AffineMap} {operands : List Value}
    {resultIsIndex : Bool} (hsym : map.numSymbols = 0)
    (hidx : ∀ v ∈ operands, (ir.info v).isIndex → (ir'.info v).isIndex)
    (hvalid : ∀ v, isValidDim ir v → isValidDim ir' v)
    (h : verifyAffineApply ir map operands resultIsIndex = .ok ()) :
    verifyAffineApply ir' map operands resultIsIndex = .ok () := by
  obtain ⟨hlen, hidx', hres, ⟨hdims, -⟩, hone⟩ := verifyAffineApply_eq_ok.mp h
  have hdims' : operands.length ≤ map.numDims := by
    rw [hlen, AffineMap.numInputs, hsym, Nat.add_zero]
  exact verifyAffineApply_eq_ok.mpr ⟨hlen, fun v hv => hidx v hv (hidx' v hv), hres,
    ⟨fun v hv => hvalid v (hdims v hv), by simp [List.drop_eq_nil_iff.mpr hdims']⟩, hone⟩

/-- An operand of `index` type is a value of the function. -/
theorem IR.lt_length_of_isIndex {ir : IR} {v : Value} (h : (ir.info v).isIndex) :
    v < ir.values.length := by
  by_contra hv
  rw [IR.info_of_length_le (Nat.le_of_not_lt hv)] at h
  cases h

/-- A verified `affine.apply` without symbols on old values stays verified. -/
theorem verifyAffineApply_of_extends (hext : ir'.values = ir.values ++ more) {map : AffineMap}
    {operands : List Value} {resultIsIndex : Bool} (hsym : map.numSymbols = 0)
    (h : verifyAffineApply ir map operands resultIsIndex = .ok ()) :
    verifyAffineApply ir' map operands resultIsIndex = .ok () :=
  verifyAffineApply_of_forward hsym
    (fun v _ hv => by rwa [IR.info_of_extends hext (IR.lt_length_of_isIndex hv)])
    (isValidDim_of_extends hext) h

/-- Appending values keeps a function ready for composition when every `affine.apply` among the
new values has no symbols, a well-formed map, and passes its verifier. -/
theorem IR.ComposeReady.of_extends (hready : ir.ComposeReady)
    (hext : ir'.values = ir.values ++ more)
    (hnew : ∀ v map operands, ir.values.length ≤ v → ir'.affineApplyOf v = some (map, operands) →
      map.numSymbols = 0 ∧ map.isWellFormed ∧
        verifyAffineApply ir' map operands (ir'.info v).isIndex = .ok ()) :
    ir'.ComposeReady := by
  have hold : ∀ {v map operands}, v < ir.values.length →
      ir'.affineApplyOf v = some (map, operands) → ir.affineApplyOf v = some (map, operands) :=
    fun hv h => (IR.affineApplyOf_of_extends hext hv).symm.trans h
  refine ⟨fun v map operands h => ?_, fun v map operands h => ?_, fun v map operands h => ?_⟩
  all_goals rcases Nat.lt_or_ge v ir.values.length with hv | hv
  · rw [IR.info_of_extends hext hv]
    exact verifyAffineApply_of_extends hext (hready.symbolFree v map operands (hold hv h))
      (hready.verified v map operands (hold hv h))
  · exact (hnew v map operands hv h).2.2
  · exact hready.wellFormed v map operands (hold hv h)
  · exact (hnew v map operands hv h).2.1
  · exact hready.symbolFree v map operands (hold hv h)
  · exact (hnew v map operands hv h).1

/-- A function stays ready for composition when every value keeps its `affine.apply` and its type
and valid dims stay valid. -/
theorem IR.ComposeReady.of_forward (hready : ir.ComposeReady)
    (happ : ∀ v, ir'.affineApplyOf v = ir.affineApplyOf v)
    (hidx : ∀ v, (ir'.info v).isIndex = (ir.info v).isIndex)
    (hvalid : ∀ v, isValidDim ir v → isValidDim ir' v) : ir'.ComposeReady := by
  refine ⟨fun v map operands h => ?_, fun v map operands h => ?_, fun v map operands h => ?_⟩
  all_goals rw [happ] at h
  · rw [hidx]
    exact verifyAffineApply_of_forward (hready.symbolFree v map operands h)
      (fun u _ hu => by rwa [hidx]) hvalid (hready.verified v map operands h)
  · exact hready.wellFormed v map operands h
  · exact hready.symbolFree v map operands h

end Extends

/-! ## The temporary `affine.apply`s -/

section Appended

variable {ir ir' : IR} {region : Bool} {numDims : Nat} {operands : List Value}
  {es : List AffineExpr}

/-- The `j`-th appended value is defined by the `affine.apply` of the `j`-th expression. -/
theorem IR.info_appended {numSymbols : Nat}
    (hext : ir'.values = ir.values ++ es.map (singleResultApplyInfo region numDims numSymbols
      operands)) {j : Nat} (hj : j < es.length) :
    ir'.info (ir.values.length + j) =
      singleResultApplyInfo region numDims numSymbols operands es[j] := by
  rw [IR.info, hext, List.getD_append_right _ _ _ _ (Nat.le_add_right _ _),
    Nat.add_sub_cancel_left, List.getD_eq_getElem _ _ (by simpa using hj), List.getElem_map]

/-- Appending one `affine.apply` per result of a well-formed symbol-free map on valid dims keeps
the function ready for composition, and every new value is a valid dim. -/
theorem IR.ComposeReady.append_applies (hready : ir.ComposeReady)
    (hext : ir'.values = ir.values ++ es.map (singleResultApplyInfo region numDims 0 operands))
    (hwf : (⟨numDims, 0, es⟩ : AffineMap).isWellFormed) (hlen : operands.length = numDims)
    (hvalid : ∀ u ∈ operands, isValidDim ir u) :
    ir'.ComposeReady ∧ ∀ j < es.length, isValidDim ir' (ir.values.length + j) := by
  have hvalid' : ∀ u ∈ operands, isValidDim ir' u :=
    fun u hu => isValidDim_of_extends hext u (hvalid u hu)
  have happ : ∀ j (hj : j < es.length), ir'.affineApplyOf (ir.values.length + j) =
      some (⟨numDims, 0, [es[j]]⟩, operands) := fun j hj => by
    rw [IR.affineApplyOf_appended hext, List.getElem?_eq_getElem hj, Option.map_some']
  have hverify : ∀ j (hj : j < es.length), verifyAffineApply ir' ⟨numDims, 0, [es[j]]⟩ operands
      (ir'.info (ir.values.length + j)).isIndex = .ok () := fun j hj =>
    verifyAffineApply_eq_ok.mpr ⟨by simp [hlen, AffineMap.numInputs],
      fun u hu => isIndex_of_isValidDim (hvalid' u hu),
      by simp [IR.info_appended hext hj, singleResultApplyInfo],
      ⟨fun u hu => hvalid' u (List.mem_of_mem_take hu),
        by simp [List.drop_eq_nil_iff.mpr hlen.le]⟩, rfl⟩
  refine ⟨hready.of_extends hext fun v map ops hv h => ?_, fun j hj => ?_⟩
  · obtain ⟨j, rfl⟩ : ∃ j, v = ir.values.length + j := ⟨v - ir.values.length, by omega⟩
    have hj : j < es.length := by
      by_contra hj
      rw [IR.affineApplyOf_appended hext, List.getElem?_eq_none (Nat.le_of_not_lt hj)] at h
      cases h
    rw [happ j hj, Option.some.injEq, Prod.mk.injEq] at h
    obtain ⟨rfl, rfl⟩ := h
    refine ⟨rfl, ?_, hverify j hj⟩
    simp only [AffineMap.isWellFormed, List.all_eq_true] at hwf ⊢
    simpa using hwf _ (List.getElem_mem hj)
  · rw [isValidDim_iff]
    exact ⟨by simp [IR.info_appended hext hj, singleResultApplyInfo],
      .inr (.inr (.inr (.inl ⟨_, _, happ j hj, hvalid'⟩)))⟩

end Appended

/-- The temporary `affine.apply`s get identities from the counter on. -/
theorem createSingleResultApplies_ids {before : OpId} {region : Bool} {numDims numSymbols : Nat}
    {operands : List Value} :
    ∀ {s : FuncBody} {es : List AffineExpr} {r : FuncBody × List Value × List (OpId × Value)},
      createSingleResultApplies before region numDims numSymbols operands s es = some r →
      ∀ p ∈ r.2.2, s.nextOpId ≤ p.1
  | _, [], _, h => by cases h; exact fun _ => nofun
  | _, _ :: _, _, h => by
    obtain ⟨⟨s₁, id, results⟩, h₁, h⟩ := Option.bind_eq_some.mp h
    obtain ⟨_, -, h⟩ := Option.bind_eq_some.mp h
    obtain ⟨r₂, h₂, h⟩ := Option.bind_eq_some.mp h
    cases h
    obtain ⟨g₁, rfl, -⟩ := FuncBody.createOperation_eq_some h₁
    rintro p (_ | ⟨_, hp⟩)
    exacts [le_rfl, g₁.nextOpId_le.trans (createSingleResultApplies_ids h₂ p hp)]

/-- `applyMapResults` on valid dims keeps the function ready and every old operation, and its new
valid-dim values take the map's results on the operands' values. -/
theorem applyMapResults_spec {s : FuncBody} (before : OpId) (region : Bool) {map : AffineMap}
    {operands : List Value} (hready : s.ir.ComposeReady) (hwf : map.isWellFormed)
    (hsym : map.numSymbols = 0) (hlen : operands.length = map.numDims)
    (hvalid : ∀ u ∈ operands, isValidDim s.ir u) :
    ∃ s' outs created, applyMapResults s before region map operands = some (s', outs, created) ∧
      s'.ir.ComposeReady ∧ (∃ more, s'.ir.values = s.ir.values ++ more) ∧
      (∀ k < s.nextOpId, s'.find? k = s.find? k) ∧ (∀ p ∈ created, s.nextOpId ≤ p.1) ∧
      (∀ u ∈ outs, isValidDim s'.ir u) ∧
      ∀ σ, outs.map (s'.ir.valueOf σ) = map.evalOn (operands.map (s.ir.valueOf σ)) := by
  obtain ⟨numDims, numSymbols, results⟩ := map
  subst hsym
  unfold applyMapResults
  split_ifs with hid
  · -- one `affine.apply` per result
    have hops : ∀ u ∈ operands, u < s.ir.values.length :=
      fun u hu => lt_length_of_isValidDim (hvalid u hu)
    obtain ⟨s', created, hcreate, hvalues, hfind⟩ := createSingleResultApplies_spec before region
      numDims 0 operands results s hops
    obtain ⟨hready', hnew⟩ := hready.append_applies hvalues hwf hlen hvalid
    refine ⟨s', _, created, hcreate, hready', ⟨_, hvalues⟩, hfind,
      createSingleResultApplies_ids hcreate, fun u hu => ?_, fun σ => ?_⟩
    · obtain ⟨j, hj, rfl⟩ := List.mem_map.mp hu
      exact hnew j (List.mem_range.mp hj)
    · refine List.ext_getElem (by simp [AffineMap.evalOn]) fun j h₁ _ => ?_
      have hj : j < results.length := by simpa using h₁
      simp only [List.getElem_map, List.getElem_range, IR.valueOf_appended hvalues hops σ hj]
      simp [List.getD_eq_getElem?_getD, AffineMap.evalOn, hj]
  · -- the identity map: the operands themselves
    refine ⟨s, operands, [], rfl, hready, ⟨[], (List.append_nil _).symm⟩, fun _ _ => rfl,
      fun _ => nofun, hvalid, fun σ => ?_⟩
    rw [not_not.mp hid, evalOn_getMultiDimIdentityMap (by rw [List.length_map, hlen])]

/-- A replacement's new map operands, under the entry assertions, keep the function ready and its
operations, and are `index` values, one per new rank, taking the remapped old access. -/
theorem newMapOperandsFor_spec {a : ReplaceArgs} {s s₂ : FuncBody} {opInst : OpId} {op : BodyOp}
    {oldMap : AffineMap} {oldMapOperands newMapOperands : List Value}
    {applies : List (OpId × Value)} (hready : s.ir.ComposeReady) (hpre : a.preconditionsHold)
    (hwf : oldMap.isWellFormed) (hsym : oldMap.numSymbols = 0)
    (hrank : oldMap.results.length = a.oldMemRefRank)
    (hlen : oldMapOperands.length = oldMap.numInputs)
    (hremap : ∀ indexRemap, a.indexRemap = some indexRemap → indexRemap.isWellFormed)
    (hvalid : ∀ v ∈ oldMapOperands ++ a.extraOperands, isValidDim s.ir v)
    (hextra : ∀ v ∈ a.extraIndices, v < s.ir.values.length)
    (h : newMapOperandsFor a s opInst op oldMap oldMapOperands =
      some (s₂, newMapOperands, applies)) :
    s₂.ir.ComposeReady ∧ (∃ more, s₂.ir.values = s.ir.values ++ more) ∧
      (∀ k < s.nextOpId, s₂.find? k = s.find? k) ∧ (∀ p ∈ applies, s.nextOpId ≤ p.1) ∧
      newMapOperands.length = a.newMemRefRank ∧ (∀ u ∈ newMapOperands, (s₂.ir.info u).isIndex) ∧
      ∀ σ, newMapOperands.map (s₂.ir.valueOf σ) =
        a.remapAccess (s.ir.valueOf σ) (oldMap.evalOn (oldMapOperands.map (s.ir.valueOf σ))) := by
  unfold newMapOperandsFor at h
  obtain ⟨⟨s₁, oldMemRefOperands, oldApplies⟩, h₁, h⟩ := Option.bind_eq_some.mp h
  obtain ⟨s₁', outs, created, happ, hready₁, ⟨more₁, hext₁⟩, hfind₁, hids₁, hvalid₁, hval₁⟩ :=
    applyMapResults_spec opInst op.inFunctionRegion hready hwf hsym
      (by rw [hlen, AffineMap.numInputs, hsym, Nat.add_zero])
      fun v hv => hvalid v (List.mem_append_left _ hv)
  have hnext₁ := (applyMapResults_grows happ).nextOpId_le
  rw [happ, Option.some.injEq, Prod.mk.injEq, Prod.mk.injEq] at h₁
  obtain ⟨rfl, rfl, rfl⟩ := h₁
  have hextras : ∀ v ∈ a.extraOperands, isValidDim s₁'.ir v :=
    fun v hv => isValidDim_of_extends hext₁ v (hvalid v (List.mem_append_right _ hv))
  have hkeep : ∀ σ, a.extraOperands.map (s₁'.ir.valueOf σ) = a.extraOperands.map (s.ir.valueOf σ) :=
    fun σ => List.map_congr_left fun v hv => IR.valueOf_of_extends hext₁ σ v
      (lt_length_of_isValidDim (hvalid v (List.mem_append_right _ hv)))
  have houts : outs.length = a.oldMemRefRank := by
    simpa [AffineMap.evalOn, hrank] using congrArg List.length (hval₁ fun _ => 0)
  obtain ⟨⟨s₂', remapOutputs, remapApplies⟩, h₂, h⟩ := Option.bind_eq_some.mp h
  -- the remapped indices: what `indexRemap` gives on the extra operands and the old indices
  obtain ⟨hready₂, more₂, hext₂, hfind₂, hids₂, hvalid₂, hval₂⟩ : s₂'.ir.ComposeReady ∧
      ∃ more₂, s₂'.ir.values = s₁'.ir.values ++ more₂ ∧
      (∀ k < s₁'.nextOpId, s₂'.find? k = s₁'.find? k) ∧
      (∀ p ∈ remapApplies, s₁'.nextOpId ≤ p.1) ∧ (∀ u ∈ remapOutputs, isValidDim s₂'.ir u) ∧
      ∀ σ, remapOutputs.map (s₂'.ir.valueOf σ) = (match a.indexRemap with
        | some indexRemap => indexRemap.evalOn (a.extraOperands.map (s.ir.valueOf σ) ++
            oldMap.evalOn (oldMapOperands.map (s.ir.valueOf σ)))
        | none => a.extraOperands.map (s.ir.valueOf σ) ++
            oldMap.evalOn (oldMapOperands.map (s.ir.valueOf σ))) := by
    cases hR : a.indexRemap with
    | none =>
      rw [hR] at h₂
      cases h₂
      refine ⟨hready₁, [], (List.append_nil _).symm, fun _ _ => rfl, fun _ => nofun,
        fun u hu => ?_, fun σ => ?_⟩
      · rcases List.mem_append.mp hu with hu | hu
        exacts [hextras u hu, hvalid₁ u hu]
      · rw [List.map_append, hkeep, hval₁]
    | some indexRemap =>
      rw [hR] at h₂
      have hsymR : indexRemap.numSymbols = 0 := by
        simp only [ReplaceArgs.preconditionsHold, hR, Bool.and_eq_true, beq_iff_eq] at hpre
        exact hpre.1.1.1
      have hdimsR : (a.extraOperands ++ outs).length = indexRemap.numDims := by
        simp only [ReplaceArgs.preconditionsHold, hR, Bool.and_eq_true, beq_iff_eq] at hpre
        have := hpre.1.1.2
        simp only [AffineMap.numInputs, hsymR] at this
        simp only [List.length_append, houts]
        omega
      obtain ⟨s₂'', outs₂, created₂, happ₂, hready₂, ⟨more₂, hext₂⟩, hfind₂, hids₂, hvalid₂, hval₂⟩ :=
        applyMapResults_spec opInst op.inFunctionRegion hready₁ (hremap indexRemap hR) hsymR
          hdimsR fun u hu => (List.mem_append.mp hu).elim (hextras u) (hvalid₁ u)
      rw [Option.map_some', Option.getD_some, happ₂, Option.some.injEq, Prod.mk.injEq,
        Prod.mk.injEq] at h₂
      obtain ⟨rfl, rfl, rfl⟩ := h₂
      exact ⟨hready₂, more₂, hext₂, hfind₂, hids₂, hvalid₂,
        fun σ => by rw [hval₂, List.map_append, hkeep, hval₁]⟩
  obtain ⟨_, hguard₁, h⟩ := Option.bind_eq_some.mp h
  obtain ⟨_, hguard₂, h⟩ := Option.bind_eq_some.mp h
  rw [Option.some.injEq, Prod.mk.injEq, Prod.mk.injEq] at h
  obtain ⟨rfl, rfl, rfl⟩ := h
  have hext : s₂'.ir.values = s.ir.values ++ (more₁ ++ more₂) := by
    rw [hext₂, hext₁, List.append_assoc]
  have hindices : ∀ e ∈ a.extraIndices, (s₂'.ir.info e).isIndex := by
    simp only [guard, List.all_eq_true, Bool.and_eq_true, Bool.or_eq_true] at hguard₁
    split_ifs at hguard₁ with hall
    exact fun e he => (hall e he).2.elim isIndex_of_isValidDim isIndex_of_isValidSymbol
  refine ⟨hready₂, ⟨_, hext⟩, fun k hk => (hfind₂ k (Nat.lt_of_lt_of_le hk hnext₁)).trans
      (hfind₁ k hk), fun p hp => ?_, by simpa [guard] using hguard₂, fun u hu => ?_, fun σ => ?_⟩
  · rcases List.mem_append.mp hp with hp | hp
    exacts [hids₁ p hp, hnext₁.trans (hids₂ p hp)]
  · rcases List.mem_append.mp hu with hu | hu
    exacts [hindices u hu, isIndex_of_isValidDim (hvalid₂ u hu)]
  · rw [List.map_append, hval₂, ReplaceArgs.remapAccess,
      List.map_congr_left fun e he => IR.valueOf_of_extends hext σ e (hextra e he)]

/-- The new map, on a ready function and `index` map operands, one per new rank: one operand per
input, over `index` leaves, with the map operands' values as results. -/
theorem composeNewMap_spec {a : ReplaceArgs} {ir : IR} {newMapOperands operands : List Value}
    {newMap : AffineMap} (hready : ir.ComposeReady)
    (hlen : newMapOperands.length = a.newMemRefRank)
    (hindex : ∀ u ∈ newMapOperands, (ir.info u).isIndex)
    (h : composeNewMap a ir newMapOperands = some (newMap, operands)) :
    operands.length = newMap.numInputs ∧
      (∀ v ∈ operands, ir.affineApplyOf v = none ∧ (ir.info v).isIndex) ∧
      ∀ σ, newMap.evalOn (operands.map (ir.valueOf σ)) = newMapOperands.map (ir.valueOf σ) := by
  obtain ⟨map', operands', hfull, -, hwf', hlen', hleaves, heval⟩ :=
    fullyComposeAffineMapAndOperands_spec_of_symbolFree hready.verified hready.wellFormed
      hready.symbolFree (maxApplyHeight ir newMapOperands)
      (isWellFormed_getMultiDimIdentityMap a.newMemRefRank)
      (by simp [hlen, getMultiDimIdentityMap, AffineMap.numInputs]) le_rfl
  obtain ⟨map'', operands'', hcan, -, hcanonical, htake, hdrop, hsem⟩ :=
    canonicalizeMapAndOperands_spec ir (simplifyAffineMap map') operands'
      (by simpa [AffineMap.numInputs] using hlen')
  rw [composeNewMap, hfull, FullyComposeOutcome.composed?, Option.bind_eq_bind,
    Option.some_bind] at h
  simp only [hcan, Option.some.injEq, Prod.mk.injEq] at h
  obtain ⟨rfl, rfl⟩ := h
  have hmem : ∀ v ∈ operands'', v ∈ operands' := fun v hv => by
    rw [← List.take_append_drop map''.numDims operands'', List.mem_append] at hv
    rcases hv with hv | hv
    · exact List.mem_of_mem_take (htake v hv).1
    · rcases hdrop v hv with hv | ⟨hv, -⟩
      exacts [List.mem_of_mem_drop hv, List.mem_of_mem_take hv]
  refine ⟨hcanonical.length_eq, fun v hv => ⟨(hleaves v (hmem v hv)).1, ?_⟩, fun σ => ?_⟩
  · rcases (hleaves v (hmem v hv)).2 with hv' | ⟨t, m, ops, ht, hvo⟩
    · exact hindex v hv'
    · exact (verifyAffineApply_eq_ok.mp (hready.verified t m ops ht)).2.1 v hvo
  · have hleafv : operands'.map (ir.valueOf σ) = operands'.map σ :=
      List.map_congr_left fun u hu => IR.valueOf_of_affineApplyOf_none (hleaves u hu).1
    rw [(hsem (AffineMap.isWellFormed_simplifyAffineMap hwf')).2,
      AffineMap.evalOn_simplifyAffineMap, hleafv, heval,
      evalOn_getMultiDimIdentityMap (by rw [List.length_map, hlen])]

/-! ## Erasing, creating, and taking over uses -/

/-- Erasing an operation keeps the values and the identity counter. -/
theorem FuncBody.erase_ir {s s' : FuncBody} {id : OpId} (h : s.erase id = some s') :
    s'.ir = s.ir ∧ s'.nextOpId = s.nextOpId := by
  obtain ⟨op, -, h⟩ := Option.bind_eq_some.mp h
  split_ifs at h
  cases h
  exact ⟨rfl, rfl⟩

/-- Erasing the temporaries keeps the values and the identity counter. -/
theorem eraseDeadApplies_ir :
    ∀ {s s' : FuncBody} {applies : List (OpId × Value)}, eraseDeadApplies s applies = some s' →
      s'.ir = s.ir ∧ s'.nextOpId = s.nextOpId
  | _, _, [], h => by cases h; exact ⟨rfl, rfl⟩
  | _, _, _ :: _, h => by
    simp only [eraseDeadApplies, Option.bind_eq_bind] at h
    split_ifs at h
    · rw [Option.some_bind] at h
      exact eraseDeadApplies_ir h
    · obtain ⟨s₁, h₁, h⟩ := Option.bind_eq_some.mp h
      obtain ⟨hir, hnext⟩ := eraseDeadApplies_ir h
      exact ⟨hir.trans (FuncBody.erase_ir h₁).1, hnext.trans (FuncBody.erase_ir h₁).2⟩

/-- Erasing the temporaries keeps every operation that is not one of them. -/
theorem eraseDeadApplies_find? :
    ∀ {s s' : FuncBody} {applies : List (OpId × Value)}, eraseDeadApplies s applies = some s' →
      ∀ k, (∀ p ∈ applies, p.1 ≠ k) → s'.find? k = s.find? k
  | _, _, [], h, _, _ => by cases h; rfl
  | _, _, (id, v) :: _, h, k, hk => by
    simp only [eraseDeadApplies, Option.bind_eq_bind] at h
    have hrest := fun p hp => hk p (List.mem_cons_of_mem (id, v) hp)
    split_ifs at h
    · rw [Option.some_bind] at h
      exact eraseDeadApplies_find? h k hrest
    · obtain ⟨s₁, h₁, h⟩ := Option.bind_eq_some.mp h
      rw [eraseDeadApplies_find? h k hrest, FuncBody.find?_erase h₁,
        if_neg (Ne.symm (hk _ (List.mem_cons_self _ _)))]

/-- A key above every key of a list is not in it. -/
theorem lookup_eq_none_of_lt {α : Type} {k : OpId} {l : List (OpId × α)}
    (h : ∀ p ∈ l, p.1 < k) : l.lookup k = none := by
  cases hk : l.lookup k with
  | none => rfl
  | some a => exact absurd (h _ (mem_of_lookup_eq_some hk)) (Nat.lt_irrefl k)

/-- The numbering check keeps the values it is given. -/
theorem IR.ofValues_values {values : List ValueInfo} {ir : IR} (h : IR.ofValues values = some ir) :
    ir.values = values := by
  unfold IR.ofValues at h
  split_ifs at h
  cases h
  rfl

/-- Created in a body with fresh identities, an operation takes the next identity and is found
under it, and its results are the next values, defined as given. -/
theorem FuncBody.createOperation_find? {s s' : FuncBody} {before : OpId} {kind : OpKind}
    {operands : List Value} {infos : List ValueInfo} {attributes : List (String × AttrValue)}
    {region : Bool} {id : OpId} {results : List Value} (hfresh : s.Fresh)
    (h : s.createOperation before kind operands infos attributes region = some (s', id, results)) :
    id = s.nextOpId ∧ results = (List.range infos.length).map (s.ir.values.length + ·) ∧
      s'.ir.values = s.ir.values ++ infos ∧
      s'.find? id = some ⟨kind, operands, results, attributes, region⟩ := by
  obtain ⟨ir, hir, h⟩ := Option.bind_eq_some.mp h
  rw [Option.some.injEq, Prod.mk.injEq, Prod.mk.injEq] at h
  obtain ⟨rfl, rfl, rfl⟩ := h
  refine ⟨rfl, rfl, IR.ofValues_values hir, ?_⟩
  rw [FuncBody.find?, List.lookup_append,
    lookup_eq_none_of_lt fun p hp => hfresh p (List.mem_of_mem_take hp), Option.none_or,
    List.lookup_cons_self]

/-- Creating an operation keeps every other one. -/
theorem FuncBody.find?_createOperation {s s' : FuncBody} {before : OpId} {kind : OpKind}
    {operands : List Value} {infos : List ValueInfo} {attributes : List (String × AttrValue)}
    {region : Bool} {id : OpId} {results : List Value}
    (h : s.createOperation before kind operands infos attributes region = some (s', id, results))
    {k : OpId} (hk : k ≠ s.nextOpId) : s'.find? k = s.find? k := by
  obtain ⟨ir, -, h⟩ := Option.bind_eq_some.mp h
  rw [Option.some.injEq, Prod.mk.injEq] at h
  obtain ⟨rfl, -⟩ := h
  exact lookup_take_append_cons_drop s.ops _ _ hk

/-- Updating every entry's value. -/
theorem lookup_map_snd {α : Type} (f : α → α) (k : OpId) :
    ∀ (l : List (OpId × α)), (l.map fun p => (p.1, f p.2)).lookup k = (l.lookup k).map f
  | [] => rfl
  | (key, a) :: l => by
    by_cases hk : k = key
    · subst hk; simp
    · simp [List.lookup_cons, beq_false_of_ne hk, lookup_map_snd f k l]

/-- The operation with its operands renamed by `ρ`. -/
def BodyOp.rename (ρ : Value → Value) (op : BodyOp) : BodyOp :=
  { op with operands := op.operands.map ρ }

namespace BodyOp

variable {ρ ρ' : Value → Value} {op : BodyOp}

@[simp] theorem rename_kind : (op.rename ρ).kind = op.kind := rfl

@[simp] theorem rename_operands : (op.rename ρ).operands = op.operands.map ρ := rfl

@[simp] theorem rename_results : (op.rename ρ).results = op.results := rfl

@[simp] theorem mapAttr_rename {name : String} : (op.rename ρ).mapAttr name = op.mapAttr name :=
  rfl

/-- Renaming by the identity changes nothing. -/
theorem rename_id : BodyOp.rename id = id := funext fun op => by cases op; simp [BodyOp.rename]

/-- Two renamings in turn are one. -/
theorem rename_comp : BodyOp.rename ρ' ∘ BodyOp.rename ρ = BodyOp.rename (ρ' ∘ ρ) :=
  funext fun op => by simp [BodyOp.rename, List.map_map]

end BodyOp

section ReplaceAllUsesWith

variable {s s' : FuncBody} {old new : Value}

/-- `replaceAllUsesWith` keeps every value's type and region and renames the operands of its
definition. -/
theorem FuncBody.replaceAllUsesWith_info (h : s.replaceAllUsesWith old new = some s') (v : Value) :
    (s'.ir.info v).isIndex = (s.ir.info v).isIndex ∧
      (s'.ir.info v).inFunctionRegion = (s.ir.info v).inFunctionRegion ∧
      (s'.ir.info v).definingOp = (s.ir.info v).definingOp.map fun
        | .affineApply map operands =>
          .affineApply map (operands.map fun u => if u = old then new else u)
        | .dim memref => .dim (if memref = old then new else memref)
        | op => op := by
  obtain ⟨ir, hir, h⟩ := Option.bind_eq_some.mp h
  cases h
  simp only [IR.info, IR.ofValues_values hir, List.getD_eq_getElem?_getD, List.getElem?_map]
  cases (s.ir.values)[v]? <;> exact ⟨rfl, rfl, rfl⟩

/-- `replaceAllUsesWith` keeps the number of values. -/
theorem FuncBody.replaceAllUsesWith_length (h : s.replaceAllUsesWith old new = some s') :
    s'.ir.values.length = s.ir.values.length := by
  obtain ⟨ir, hir, h⟩ := Option.bind_eq_some.mp h
  cases h
  rw [IR.ofValues_values hir, List.length_map]

/-- `replaceAllUsesWith` of a value that no `affine.apply` reads keeps every `affine.apply`. -/
theorem FuncBody.replaceAllUsesWith_affineApplyOf
    (hunread : ∀ v map operands, s.ir.affineApplyOf v = some (map, operands) → old ∉ operands)
    (h : s.replaceAllUsesWith old new = some s') (v : Value) :
    s'.ir.affineApplyOf v = s.ir.affineApplyOf v := by
  obtain ⟨-, -, hdef⟩ := FuncBody.replaceAllUsesWith_info h v
  rcases hd : (s.ir.info v).definingOp with _ | ⟨map, operands⟩ | _ | memref | _ <;>
    simp only [IR.affineApplyOf, hdef, hd, Option.map_some', Option.map_none']
  have hold := hunread v map operands (IR.affineApplyOf_eq_some.mpr hd)
  rw [List.map_congr_left fun u hu => if_neg (ne_of_mem_of_not_mem hu hold), List.map_id']

/-- `replaceAllUsesWith` of a value that no `affine.apply` reads, by a value of the same region,
keeps every valid dim valid: a `dim` of the old value becomes a `dim` of the new one. -/
theorem FuncBody.isValidDim_of_replaceAllUsesWith
    (hunread : ∀ v map operands, s.ir.affineApplyOf v = some (map, operands) → old ∉ operands)
    (hregion : (s.ir.info new).inFunctionRegion = (s.ir.info old).inFunctionRegion)
    (h : s.replaceAllUsesWith old new = some s') : ∀ v, isValidDim s.ir v → isValidDim s'.ir v := by
  intro v
  induction v using Nat.strong_induction_on with
  | _ v ih =>
    intro hv
    obtain ⟨hidx, hreg, hdef⟩ := FuncBody.replaceAllUsesWith_info h v
    rw [isValidDim_iff] at hv ⊢
    rw [hidx, hreg, FuncBody.replaceAllUsesWith_affineApplyOf hunread h, hdef]
    obtain ⟨hi, hnone | hregion' | hconst | ⟨map, operands, happ, hops⟩ | ⟨memref, hdim, htop⟩⟩ :=
      hv
    · exact ⟨hi, .inl (by rw [hnone]; rfl)⟩
    · exact ⟨hi, .inr (.inl hregion')⟩
    · exact ⟨hi, .inr (.inr (.inl (by rw [hconst]; rfl)))⟩
    · exact ⟨hi, .inr (.inr (.inr (.inl ⟨map, operands, happ,
        fun u hu => ih u (IR.lt_of_mem_affineApplyOf happ hu) (hops u hu)⟩)))⟩
    · refine ⟨hi, .inr (.inr (.inr (.inr ⟨if memref = old then new else memref,
        by rw [hdim]; rfl, ?_⟩)))⟩
      unfold isTopLevelSymbol at htop ⊢
      rw [(FuncBody.replaceAllUsesWith_info h _).2.1]
      split_ifs with hm
      · rwa [hregion, ← hm]
      · exact htop

/-- `replaceAllUsesWith` renames the operands of every operation. -/
theorem FuncBody.find?_replaceAllUsesWith (h : s.replaceAllUsesWith old new = some s')
    (k : OpId) : s'.find? k = (s.find? k).map (BodyOp.rename fun v => if v = old then new else v) := by
  obtain ⟨ir, -, h⟩ := Option.bind_eq_some.mp h
  cases h
  exact lookup_map_snd (BodyOp.rename fun v => if v = old then new else v) k s.ops

end ReplaceAllUsesWith

/-- Handing over the uses of old results no `affine.apply` reads keeps every value's definition,
type and validity, and renames operations by moving only old results to new values. -/
theorem replaceResultUses_spec :
    ∀ {s s' : FuncBody} {olds news : List Value},
      (∀ v map operands, s.ir.affineApplyOf v = some (map, operands) →
        ∀ u ∈ operands, (s.ir.info u).isIndex) →
      (∀ r ∈ olds, (s.ir.info r).isIndex = false) →
      (∀ p ∈ olds.zip news, (s.ir.info p.2).inFunctionRegion = (s.ir.info p.1).inFunctionRegion) →
      replaceResultUses s olds news = some s' →
      (∀ v, s'.ir.affineApplyOf v = s.ir.affineApplyOf v) ∧
        (∀ v, (s'.ir.info v).isIndex = (s.ir.info v).isIndex) ∧
        (∀ v, isValidDim s.ir v → isValidDim s'.ir v) ∧
        s'.ir.values.length = s.ir.values.length ∧
        ∃ ρ : Value → Value, (∀ v ∉ olds, ρ v = v) ∧ (∀ v, ρ v = v ∨ ρ v ∈ news) ∧
          ∀ k, s'.find? k = (s.find? k).map (BodyOp.rename ρ)
  | _, _, [], _, _, _, _, h | _, _, _ :: _, [], _, _, _, h => by
    cases h
    exact ⟨fun _ => rfl, fun _ => rfl, fun _ => id, rfl, id, fun _ _ => rfl, fun _ => .inl rfl,
      fun k => by rw [BodyOp.rename_id, Option.map_id, id]⟩
  | s, _, old :: olds, new :: news, hindex, hnot, hregion, h => by
    obtain ⟨s₁, h₁, h⟩ := Option.bind_eq_some.mp h
    have hold : (s.ir.info old).isIndex = false := hnot old (List.mem_cons_self _ _)
    have hunread : ∀ v map operands, s.ir.affineApplyOf v = some (map, operands) →
        old ∉ operands := fun v map operands happ hmem => by
      simpa [hold] using hindex v map operands happ old hmem
    have happ₁ := FuncBody.replaceAllUsesWith_affineApplyOf hunread h₁
    have hinfo₁ := FuncBody.replaceAllUsesWith_info h₁
    obtain ⟨happ', hidx', hvalid', hlen', ρ, hfix, hnews, hfind'⟩ := replaceResultUses_spec
      (fun v map operands happ u hu => by
        rw [(hinfo₁ u).1]
        exact hindex v map operands ((happ₁ v).symm.trans happ) u hu)
      (fun r hr => by rw [(hinfo₁ r).1]; exact hnot r (List.mem_cons_of_mem _ hr))
      (fun p hp => by
        rw [(hinfo₁ p.1).2.1, (hinfo₁ p.2).2.1]
        exact hregion p (List.mem_cons_of_mem _ hp)) h
    refine ⟨fun v => (happ' v).trans (happ₁ v), fun v => (hidx' v).trans (hinfo₁ v).1,
      fun v hv => hvalid' v (FuncBody.isValidDim_of_replaceAllUsesWith hunread
        (hregion _ (List.mem_cons_self _ _)) h₁ v hv),
      hlen'.trans (FuncBody.replaceAllUsesWith_length h₁),
      ρ ∘ fun v => if v = old then new else v, fun v hv => ?_, fun v => ?_, fun k => ?_⟩
    · rw [List.mem_cons, not_or] at hv
      simp only [Function.comp_apply, if_neg hv.1, hfix v hv.2]
    · simp only [Function.comp_apply]
      split_ifs
      · rcases hnews new with h | h
        · exact .inr (by rw [h]; exact List.mem_cons_self _ _)
        · exact .inr (List.mem_cons_of_mem _ h)
      · exact (hnews v).imp_right (List.mem_cons_of_mem _)
    · rw [hfind' k, FuncBody.find?_replaceAllUsesWith h₁ k, Option.map_map, BodyOp.rename_comp]

/-- Values below `n` depend on definitions only through the `affine.apply`s below `n`. -/
theorem IR.valueOf_eq_of_affineApplyOf_eq {ir ir' : IR} {n : Nat}
    (h : ∀ v < n, ir'.affineApplyOf v = ir.affineApplyOf v) (σ : Value → Int) :
    ∀ v < n, ir'.valueOf σ v = ir.valueOf σ v := by
  intro v
  induction v using Nat.strong_induction_on with
  | _ v ih =>
    intro hv
    cases happ : ir.affineApplyOf v with
    | none =>
      rw [IR.valueOf_of_affineApplyOf_none happ,
        IR.valueOf_of_affineApplyOf_none ((h v hv).trans happ)]
    | some p =>
      obtain ⟨map, operands⟩ := p
      rw [IR.valueOf_of_affineApplyOf happ, IR.valueOf_of_affineApplyOf ((h v hv).trans happ)]
      congr 2
      exact List.map_congr_left fun u hu =>
        ih u (IR.lt_of_mem_affineApplyOf happ hu) ((IR.lt_of_mem_affineApplyOf happ hu).trans hv)

/-! ## What a replacement keeps -/

/-- `s'` keeps `s` up to the renaming `ρ`: values and identities only grow, old values keep their
definition, type and validity, and old operations remain with their operands renamed. -/
structure Renames (s s' : FuncBody) (ρ : Value → Value) : Prop where
  nextOpId_le : s.nextOpId ≤ s'.nextOpId
  length_le : s.ir.values.length ≤ s'.ir.values.length
  affineApplyOf_eq : ∀ v < s.ir.values.length, s'.ir.affineApplyOf v = s.ir.affineApplyOf v
  isIndex_eq : ∀ v < s.ir.values.length, (s'.ir.info v).isIndex = (s.ir.info v).isIndex
  isValidDim_of : ∀ v, isValidDim s.ir v → isValidDim s'.ir v
  find?_eq : ∀ k < s.nextOpId, s'.find? k = (s.find? k).map (BodyOp.rename ρ)

namespace Renames

variable {s₁ s₂ s₃ : FuncBody} {ρ ρ₁ ρ₂ : Value → Value}

/-- Renamings compose. -/
theorem trans (h₁ : Renames s₁ s₂ ρ₁) (h₂ : Renames s₂ s₃ ρ₂) : Renames s₁ s₃ (ρ₂ ∘ ρ₁) where
  nextOpId_le := h₁.nextOpId_le.trans h₂.nextOpId_le
  length_le := h₁.length_le.trans h₂.length_le
  affineApplyOf_eq v hv :=
    (h₂.affineApplyOf_eq v (Nat.lt_of_lt_of_le hv h₁.length_le)).trans (h₁.affineApplyOf_eq v hv)
  isIndex_eq v hv :=
    (h₂.isIndex_eq v (Nat.lt_of_lt_of_le hv h₁.length_le)).trans (h₁.isIndex_eq v hv)
  isValidDim_of v hv := h₂.isValidDim_of v (h₁.isValidDim_of v hv)
  find?_eq k hk := by
    rw [h₂.find?_eq k (Nat.lt_of_lt_of_le hk h₁.nextOpId_le), h₁.find?_eq k hk, Option.map_map,
      BodyOp.rename_comp]

/-- Appending values and operations renames nothing. -/
theorem of_extends {more : List ValueInfo} (hext : s₂.ir.values = s₁.ir.values ++ more)
    (hnext : s₁.nextOpId ≤ s₂.nextOpId) (hfind : ∀ k < s₁.nextOpId, s₂.find? k = s₁.find? k) :
    Renames s₁ s₂ id where
  nextOpId_le := hnext
  length_le := by rw [hext, List.length_append]; exact Nat.le_add_right _ _
  affineApplyOf_eq _ hv := IR.affineApplyOf_of_extends hext hv
  isIndex_eq _ hv := by rw [IR.info_of_extends hext hv]
  isValidDim_of := isValidDim_of_extends hext
  find?_eq k hk := by rw [hfind k hk, BodyOp.rename_id, Option.map_id, id]

/-- Every old value keeps its value. -/
theorem valueOf_eq (h : Renames s₁ s₂ ρ) (σ : Value → Int) :
    ∀ v < s₁.ir.values.length, s₂.ir.valueOf σ v = s₁.ir.valueOf σ v :=
  IR.valueOf_eq_of_affineApplyOf_eq h.affineApplyOf_eq σ

end Renames

/-- The last two stages of a replacement create the operation under the next identity and keep
the function ready and fresh, up to a renaming of old results to new values. -/
theorem createReplacement_spec {s s₁ s' : FuncBody} {before : OpId} {kind : OpKind}
    {operands olds results : List Value} {attributes : List (String × AttrValue)}
    {region : Bool} {id : OpId} (hready : s.ir.ComposeReady) (hfresh : s.Fresh)
    (holds : ∀ r ∈ olds, r < s.ir.values.length ∧ (s.ir.info r).isIndex = false)
    (hcreate : s.createOperation before kind operands (olds.map s.ir.info) attributes region =
      some (s₁, id, results))
    (htake : replaceResultUses s₁ olds results = some s') :
    s'.ir.ComposeReady ∧ s'.Fresh ∧ id = s.nextOpId ∧
      ∃ ρ, Renames s s' ρ ∧ (∀ v ∉ olds, ρ v = v) ∧ (∀ v, ρ v = v ∨ s.ir.values.length ≤ ρ v) ∧
        s'.find? id = some (BodyOp.rename ρ ⟨kind, operands, results, attributes, region⟩) := by
  obtain ⟨hgrow₁, -⟩ := FuncBody.createOperation_eq_some hcreate
  obtain ⟨rfl, hres, hext, hfind⟩ := FuncBody.createOperation_find? hfresh hcreate
  -- the new values copy the old results' definitions, and those are not `affine.apply`s
  have hcopy : ∀ j, s₁.ir.info (s.ir.values.length + j) = (olds[j]?.map s.ir.info).getD default :=
    fun j => by
      rw [IR.info, hext, List.getD_append_right _ _ _ _ (Nat.le_add_right _ _),
        Nat.add_sub_cancel_left, List.getD_eq_getElem?_getD, List.getElem?_map]
  have hnew : ∀ v, s.ir.values.length ≤ v → s₁.ir.affineApplyOf v = none := fun v hv => by
    obtain ⟨j, rfl⟩ := Nat.exists_eq_add_of_le hv
    rw [IR.affineApplyOf, hcopy]
    cases hj : olds[j]? with
    | none => rfl
    | some r =>
      cases happ : s.ir.affineApplyOf r with
      | none => exact happ
      | some p =>
        have hidx := (verifyAffineApply_eq_ok.mp (hready.verified r p.1 p.2 happ)).2.2.1
        rw [(holds r (List.getElem?_mem hj)).2] at hidx
        cases hidx
  have hready₁ : s₁.ir.ComposeReady := hready.of_extends hext fun v _ _ hv h => by
    rw [hnew v hv] at h; cases h
  have hold₁ : ∀ r ∈ olds, (s₁.ir.info r).isIndex = false := fun r hr => by
    rw [IR.info_of_extends hext (holds r hr).1]; exact (holds r hr).2
  have hregion₁ : ∀ p ∈ olds.zip results,
      (s₁.ir.info p.2).inFunctionRegion = (s₁.ir.info p.1).inFunctionRegion := fun p hp => by
    obtain ⟨j, hj, rfl⟩ := List.getElem_of_mem hp
    have hj' : j < olds.length := by simp [hres] at hj; omega
    simp only [List.getElem_zip, hres, List.getElem_map, List.getElem_range, hcopy,
      List.getElem?_eq_getElem hj', Option.map_some', Option.getD_some,
      IR.info_of_extends hext (holds _ (List.getElem_mem hj')).1]
  obtain ⟨happ', hidx', hvalid', hlen', ρ, hfix, hnews, hfind'⟩ := replaceResultUses_spec
    (fun v map ops happ u hu => (verifyAffineApply_eq_ok.mp (hready₁.verified v map ops happ)).2.1 u hu)
    hold₁ hregion₁ htake
  have hgrow' := (replaceResultUses_grows htake).1
  refine ⟨hready₁.of_forward happ' hidx' hvalid', hgrow'.fresh (hgrow₁.fresh hfresh), rfl, ρ,
    ⟨hgrow₁.nextOpId_le.trans hgrow'.nextOpId_le,
      by rw [hlen', hext, List.length_append]; exact Nat.le_add_right _ _,
      fun v hv => (happ' v).trans (IR.affineApplyOf_of_extends hext hv),
      fun v hv => (hidx' v).trans (by rw [IR.info_of_extends hext hv]),
      fun v hv => hvalid' v (isValidDim_of_extends hext v hv),
      fun k hk => by rw [hfind' k, FuncBody.find?_createOperation hcreate (Nat.ne_of_lt hk)]⟩,
    hfix, fun v => (hnews v).imp_right fun hv => ?_, by rw [hfind', hfind]; rfl⟩
  rw [hres] at hv
  obtain ⟨j, -, hj⟩ := List.mem_map.mp hv
  exact hj ▸ Nat.le_add_right _ _

/-! ## The replacement's access -/

/-- The access an operation makes through the memref operand at `position`: that operand, the
map in the attribute `name`, and the operands after the memref, one per input of the map. -/
def BodyOp.accessAt (op : BodyOp) (position : Nat) (name : String) :
    Option (Value × AffineMap × List Value) := do
  let memref ← op.operands[position]?
  let (_, map) ← op.mapAttr name
  let operands ← operandRange op.operands (position + 1) map.numInputs
  some (memref, map, operands)

/-- The attribute `name` holds an affine map. -/
theorem BodyOp.mapAttr_eq_some_iff {op : BodyOp} {name name' : String} {map : AffineMap} :
    op.mapAttr name = some (name', map) ↔
      name' = name ∧ op.attributes.lookup name = some (.affineMap map) := by
  unfold BodyOp.mapAttr
  split <;> simp_all [eq_comm]

/-- An access, read part by part. -/
theorem BodyOp.accessAt_eq_some_iff {op : BodyOp} {position : Nat} {name : String} {m : Value}
    {map : AffineMap} {ops : List Value} :
    op.accessAt position name = some (m, map, ops) ↔ op.operands[position]? = some m ∧
      op.mapAttr name = some (name, map) ∧
      operandRange op.operands (position + 1) map.numInputs = some ops := by
  constructor
  · intro h
    obtain ⟨m', hm, h⟩ := Option.bind_eq_some.mp h
    obtain ⟨⟨n, map'⟩, hmap, h⟩ := Option.bind_eq_some.mp h
    obtain ⟨ops', hops, h⟩ := Option.bind_eq_some.mp h
    rw [Option.some.injEq, Prod.mk.injEq, Prod.mk.injEq] at h
    obtain ⟨rfl, rfl, rfl⟩ := h
    obtain ⟨rfl, -⟩ := BodyOp.mapAttr_eq_some_iff.mp hmap
    exact ⟨hm, hmap, hops⟩
  · rintro ⟨hm, hmap, hops⟩
    simp [BodyOp.accessAt, hm, hmap, hops]

/-- Operand ranges commute with renaming. -/
theorem operandRange_map (ρ : Value → Value) (operands : List Value) (start count : Nat) :
    operandRange (operands.map ρ) start count =
      (operandRange operands start count).map (List.map ρ) := by
  simp only [operandRange, List.length_map]
  split_ifs <;> simp [List.map_take, List.map_drop]

/-- A renaming that keeps the memref and the map operands keeps an access. -/
theorem BodyOp.accessAt_rename {op : BodyOp} {ρ : Value → Value} {position : Nat} {name : String}
    {m : Value} {map : AffineMap} {ops : List Value}
    (h : op.accessAt position name = some (m, map, ops)) (hm : ρ m = m)
    (hops : ∀ w ∈ ops, ρ w = w) : (op.rename ρ).accessAt position name = some (m, map, ops) := by
  obtain ⟨hmem, hattr, hrange⟩ := BodyOp.accessAt_eq_some_iff.mp h
  refine BodyOp.accessAt_eq_some_iff.mpr ⟨by simp [List.getElem?_map, hmem, hm], hattr, ?_⟩
  rw [BodyOp.rename_operands, operandRange_map, hrange, Option.map_some',
    List.map_congr_left hops, List.map_id']

/-- What replacing `op`'s access at `position` through attribute `name` leaves: a new operation
of `op`'s kind holding `newMemRef` there, whose map operands give the remapped old access. -/
def ReplacedAt (a : ReplaceArgs) (s : FuncBody) (op : BodyOp) (position : Nat) (name : String)
    (oldMap : AffineMap) (oldMapOperands : List Value) (s' : FuncBody) : Prop :=
  ∃ id op' newMap newMapOperands, s.nextOpId ≤ id ∧ s'.find? id = some op' ∧
    op'.kind = op.kind ∧ op'.accessAt position name = some (a.newMemRef, newMap, newMapOperands) ∧
    (∀ w ∈ newMapOperands, (s'.ir.info w).isIndex) ∧
    ∀ σ, newMap.evalOn (newMapOperands.map (s'.ir.valueOf σ)) =
      a.remapAccess (s.ir.valueOf σ) (oldMap.evalOn (oldMapOperands.map (s.ir.valueOf σ)))

/-- What a replacement of `op` is for: where `op` accesses `oldMemRef`, a new operation of its
kind accesses `newMemRef` at the remapped old access, under every assignment of the leaves. -/
def RemapsAccess (a : ReplaceArgs) (s : FuncBody) (op : BodyOp) (s' : FuncBody) : Prop :=
  ∃ position name oldMap oldMapOperands,
    op.accessAt position name = some (a.oldMemRef, oldMap, oldMapOperands) ∧
      ReplacedAt a s op position name oldMap oldMapOperands s'

/-- The attribute `getAffineMapAttrForMemRef` names holds its map. -/
theorem mapAttr_of_getAffineMapAttrForMemRef {op : BodyOp} {memref : Value} {name : String}
    {map : AffineMap} (h : getAffineMapAttrForMemRef op memref = some (name, map)) :
    op.mapAttr name = some (name, map) := by
  have hnamed : ∀ n, op.mapAttr n = some (name, map) → op.mapAttr name = some (name, map) :=
    fun n hn => by
      unfold BodyOp.mapAttr at hn ⊢
      split at hn <;> simp_all
  unfold getAffineMapAttrForMemRef at h
  split at h
  · split_ifs at h
    exact hnamed _ h
  · split_ifs at h
    exact hnamed _ h
  · -- `affine.dma_start`: the source, destination and tag positions in turn
    split_ifs at h
    · exact hnamed _ h
    · obtain ⟨⟨_, srcMap⟩, -, h⟩ := Option.bind_eq_some.mp h
      dsimp only at h
      split_ifs at h
      · exact hnamed _ h
      · obtain ⟨⟨_, dstMap⟩, -, h⟩ := Option.bind_eq_some.mp h
        dsimp only at h
        split_ifs at h
        exact hnamed _ h
  · split_ifs at h
    exact hnamed _ h
  · cases h

/-- The access `replaceAllMemRefUsesWith` rewrites: at the memref's first position, through the
attribute `getAffineMapAttrForMemRef` names, on the operands `memRefMapOperands` reads. -/
theorem BodyOp.accessAt_of_memRefMapOperands {op : BodyOp} {m : Value} {position : Nat}
    {name : String} {map : AffineMap} {ops : List Value}
    (hfind : op.operands.findIdx? (· == m) = some position)
    (hattr : getAffineMapAttrForMemRef op m = some (name, map))
    (hslice : memRefMapOperands op m = some ops) : op.accessAt position name = some (m, map, ops) := by
  obtain ⟨hpos, hat, -⟩ := List.findIdx?_eq_some_iff_getElem.mp hfind
  exact BodyOp.accessAt_eq_some_iff.mpr ⟨by rw [List.getElem?_eq_getElem hpos, eq_of_beq hat],
    mapAttr_of_getAffineMapAttrForMemRef hattr, (memRefMapOperands_eq hfind hattr).symm.trans hslice⟩

/-- A replacement, stage by stage: the memref's position and map attribute, the operand count
check, the new map operands and map, the erasure of dead temporaries, creation, and the uses. -/
theorem replaceUser_eq_some {a : ReplaceArgs} {s s' : FuncBody} {opInst : OpId} {op : BodyOp}
    (h : replaceUser a s opInst op = some s') :
    ∃ position name oldMap s₂ newMapOperands applies newMap newOps s₃ s₄ id results,
      op.operands.findIdx? (· == a.oldMemRef) = some position ∧
      getAffineMapAttrForMemRef op a.oldMemRef = some (name, oldMap) ∧
      position + 1 + oldMap.numInputs ≤ op.operands.length ∧
      newMapOperandsFor a s opInst op oldMap
        ((op.operands.drop (position + 1)).take oldMap.numInputs) =
        some (s₂, newMapOperands, applies) ∧
      composeNewMap a s₂.ir newMapOperands = some (newMap, newOps) ∧
      eraseDeadApplies s₂ applies = some s₃ ∧
      s₃.createOperation opInst op.kind (op.operands.take position ++ a.newMemRef :: newOps ++
          op.operands.drop (position + 1 + oldMap.numInputs)) (op.results.map s₃.ir.info)
        (op.attributes.map fun attr =>
          if attr.1 = name then (attr.1, .affineMap newMap) else attr)
        op.inFunctionRegion = some (s₄, id, results) ∧
      replaceResultUses s₄ op.results results = some s' := by
  unfold replaceUser at h
  obtain ⟨position, hposition, h⟩ := Option.bind_eq_some.mp h
  obtain ⟨⟨name, oldMap⟩, hattr, h⟩ := Option.bind_eq_some.mp h
  obtain ⟨_, hguard, h⟩ := Option.bind_eq_some.mp h
  obtain ⟨⟨s₂, newMapOperands, applies⟩, hnew, h⟩ := Option.bind_eq_some.mp h
  obtain ⟨⟨newMap, newOps⟩, hcompose, h⟩ := Option.bind_eq_some.mp h
  obtain ⟨s₃, herase, h⟩ := Option.bind_eq_some.mp h
  obtain ⟨⟨s₄, id, results⟩, hcreate, h⟩ := Option.bind_eq_some.mp h
  exact ⟨position, name, oldMap, s₂, newMapOperands, applies, newMap, newOps, s₃, s₄, id, results,
    hposition, hattr, by simpa [guard] using hguard, hnew, hcompose, herase, hcreate, h⟩

section ReplaceUser

variable {a : ReplaceArgs} {s s' : FuncBody} {opInst : OpId} {op : BodyOp}

/-- One replacement with the assumptions of `replaceUser_remaps_access` keeps the function ready
and fresh up to a renaming of old results, and replaces the access at the memref's position. -/
theorem replaceUser_spec (hready : s.ir.ComposeReady) (hfresh : s.Fresh)
    (hpre : a.preconditionsHold)
    (hmap : ∀ name map, getAffineMapAttrForMemRef op a.oldMemRef = some (name, map) →
      map.isWellFormed ∧ map.numSymbols = 0 ∧ map.results.length = a.oldMemRefRank)
    (hremap : ∀ indexRemap, a.indexRemap = some indexRemap → indexRemap.isWellFormed)
    (hoperands : ∀ operands, memRefMapOperands op a.oldMemRef = some operands →
      ∀ v ∈ operands ++ a.extraOperands, isValidDim s.ir v)
    (hextra : ∀ v ∈ a.extraIndices, v < s.ir.values.length)
    (hresults : ∀ r ∈ op.results, r < s.ir.values.length ∧ (s.ir.info r).isIndex = false ∧
      r ≠ a.newMemRef)
    (h : replaceUser a s opInst op = some s') :
    s'.ir.ComposeReady ∧ s'.Fresh ∧
      (∃ ρ, Renames s s' ρ ∧ (∀ v ∉ op.results, ρ v = v) ∧
        ∀ v, ρ v = v ∨ s.ir.values.length ≤ ρ v) ∧
      ∃ position name oldMap oldMapOperands,
        op.operands.findIdx? (· == a.oldMemRef) = some position ∧
        getAffineMapAttrForMemRef op a.oldMemRef = some (name, oldMap) ∧
        memRefMapOperands op a.oldMemRef = some oldMapOperands ∧
        op.accessAt position name = some (a.oldMemRef, oldMap, oldMapOperands) ∧
        ReplacedAt a s op position name oldMap oldMapOperands s' := by
  obtain ⟨position, name, oldMap, s₂, newMapOperands, applies, newMap, newOps, s₃, s₄, newId,
    results, hposition, hattr, hbound, hnew, hcompose, herase, hcreate, htake⟩ :=
    replaceUser_eq_some h
  obtain ⟨hwf, hsym, hrank⟩ := hmap name oldMap hattr
  obtain ⟨hpos, -, -⟩ := List.findIdx?_eq_some_iff_getElem.mp hposition
  have hrange : operandRange op.operands (position + 1) oldMap.numInputs =
      some ((op.operands.drop (position + 1)).take oldMap.numInputs) := by
    rw [operandRange, if_pos hbound]
  have hslice := (memRefMapOperands_eq hposition hattr).trans hrange
  -- the new map operands, the composed map, and the temporaries erased
  obtain ⟨hready₂, ⟨more₂, hext₂⟩, hfind₂, hids₂, hlenN, hindexN, hvalN⟩ :=
    newMapOperandsFor_spec hready hpre hwf hsym hrank
      (by simp only [List.length_take, List.length_drop]; omega) hremap (hoperands _ hslice)
      hextra hnew
  obtain ⟨hlenOps, hleaves, hvalC⟩ := composeNewMap_spec hready₂ hlenN hindexN hcompose
  obtain ⟨hir₃, hnext₃⟩ := eraseDeadApplies_ir herase
  have hgrow₂ := newMapOperandsFor_grows hnew
  have hren₃ : Renames s s₃ id :=
    Renames.of_extends (hir₃ ▸ hext₂) (hnext₃ ▸ hgrow₂.nextOpId_le) fun k hk => by
      rw [eraseDeadApplies_find? herase k fun p hp =>
        Nat.ne_of_gt (Nat.lt_of_lt_of_le hk (hids₂ p hp)), hfind₂ k hk]
  -- the replacement, and the results' uses handed over
  obtain ⟨hready', hfresh', rfl, ρ, hren, hfix, hfar, hfind'⟩ := createReplacement_spec
    (hir₃ ▸ hready₂) ((eraseDeadApplies_grows herase).fresh (hgrow₂.fresh hfresh))
    (fun r hr => ⟨Nat.lt_of_lt_of_le (hresults r hr).1 hren₃.length_le,
      (hren₃.isIndex_eq r (hresults r hr).1).trans (hresults r hr).2.1⟩) hcreate htake
  -- the leaves of the new map are of `index` type, so the renaming keeps them
  have hleafIdx : ∀ w ∈ newOps, (s₃.ir.info w).isIndex := fun w hw => hir₃ ▸ (hleaves w hw).2
  have hleafFix : ∀ w ∈ newOps, ρ w = w := fun w hw => hfix w fun hr => by
    have := (hren₃.isIndex_eq w (hresults w hr).1).symm.trans (hleafIdx w hw)
    rw [(hresults w hr).2.1] at this
    cases this
  have hattrMap := mapAttr_of_getAffineMapAttrForMemRef hattr
  refine ⟨hready', hfresh', ⟨ρ, Function.comp_id ρ ▸ hren₃.trans hren, hfix,
      fun v => (hfar v).imp_right hren₃.length_le.trans⟩,
    position, name, oldMap, _, hposition, hattr, hslice,
    BodyOp.accessAt_of_memRefMapOperands hposition hattr hslice,
    s₃.nextOpId, _, newMap, newOps, hnext₃ ▸ hgrow₂.nextOpId_le, hfind', rfl, ?_,
    fun w hw => (hren.isIndex_eq w (IR.lt_length_of_isIndex (hleafIdx w hw))).trans (hleafIdx w hw),
    fun σ => ?_⟩
  · -- the new memref, the new map in the old attribute, and the composed operands after it
    obtain ⟨hmem, hwindow⟩ := read_block rfl (List.length_take_of_le hpos.le).symm hlenOps.symm
    refine BodyOp.accessAt_rename (BodyOp.accessAt_eq_some_iff.mpr ⟨hmem, ?_, hwindow⟩)
      (hfix _ fun hr => (hresults _ hr).2.2 rfl) hleafFix
    obtain ⟨-, hfound⟩ := BodyOp.mapAttr_eq_some_iff.mp hattrMap
    refine BodyOp.mapAttr_eq_some_iff.mpr ⟨rfl, ?_⟩
    dsimp only
    rw [lookup_map_update (fun _ => AttrValue.affineMap newMap) name name, hfound]
    simp
  · -- the values: through the results' uses, the created operation and the composition
    have hleafVal : newOps.map (s'.ir.valueOf σ) = newOps.map (s₂.ir.valueOf σ) :=
      List.map_congr_left fun w hw => by
        rw [hren.valueOf_eq σ w (IR.lt_length_of_isIndex (hleafIdx w hw)), hir₃]
    rw [hleafVal, hvalC σ, hvalN σ]

/-- A replacement reads the remapped location: whenever `replaceUser` rewrites the operation, the
new one reads `newMemRef` at the extra indices followed by the remapped old access. -/
theorem replaceUser_remaps_access (hready : s.ir.ComposeReady) (hfresh : s.Fresh)
    (hpre : a.preconditionsHold)
    (hmap : ∀ name map, getAffineMapAttrForMemRef op a.oldMemRef = some (name, map) →
      map.isWellFormed ∧ map.numSymbols = 0 ∧ map.results.length = a.oldMemRefRank)
    (hremap : ∀ indexRemap, a.indexRemap = some indexRemap → indexRemap.isWellFormed)
    (hoperands : ∀ operands, memRefMapOperands op a.oldMemRef = some operands →
      ∀ v ∈ operands ++ a.extraOperands, isValidDim s.ir v)
    (hextra : ∀ v ∈ a.extraIndices, v < s.ir.values.length)
    (hresults : ∀ r ∈ op.results, r < s.ir.values.length ∧ (s.ir.info r).isIndex = false ∧
      r ≠ a.newMemRef)
    (h : replaceUser a s opInst op = some s') : RemapsAccess a s op s' := by
  obtain ⟨-, -, -, position, name, oldMap, oldMapOperands, -, -, -, haccess, hreplaced⟩ :=
    replaceUser_spec hready hfresh hpre hmap hremap hoperands hextra hresults h
  exact ⟨position, name, oldMap, oldMapOperands, haccess, hreplaced⟩

end ReplaceUser

/-- `%v = affine.load %A[%i]` with `%A`, `%i` and `%v` the values `0`, `1` and `3`. -/
def loadAtI : BodyOp :=
  ⟨.affineLoad, [0, 1], [3], [("map", .affineMap ⟨1, 0, [.dim 0]⟩)], false⟩

/-- A function argument `%A` (value `0`, a memref), a loop induction variable `%i` (value `1`), a
function argument `%B` (value `2`, a memref) and the load `loadAtI` (value `3`). -/
def loadAtIBody : FuncBody :=
  ⟨⟨[⟨false, true, none⟩, ⟨true, false, none⟩, ⟨false, true, none⟩, ⟨false, false, some .other⟩],
      by decide⟩, [(0, loadAtI)], 1⟩

/-- Replacing `%A` by `%B` through the remapping `(d0) -> (d0 * 2)`. -/
def doubleIntoB : ReplaceArgs :=
  ⟨0, 2, [], some ⟨1, 0, [.binary .mul (.dim 0) (.constant 2)]⟩, [], none, none, 1, 1, true⟩

/-- The load of `%A[%i]` becomes a load of `%B[%i * 2]`. -/
theorem replaceUser_remaps_access_loadAtI :
    loadAtIBody.ir.ComposeReady ∧ loadAtIBody.Fresh ∧ doubleIntoB.preconditionsHold ∧
      ∃ s', replaceUser doubleIntoB loadAtIBody 0 loadAtI = some s' ∧
        RemapsAccess doubleIntoB loadAtIBody loadAtI s' :=
  have hready : loadAtIBody.ir.ComposeReady := ⟨by decide, by decide, by decide⟩
  have hattr : getAffineMapAttrForMemRef loadAtI doubleIntoB.oldMemRef =
      some ("map", ⟨1, 0, [.dim 0]⟩) := rfl
  have hslice : memRefMapOperands loadAtI doubleIntoB.oldMemRef = some [1] := rfl
  have hsome : (replaceUser doubleIntoB loadAtIBody 0 loadAtI).isSome := by decide
  ⟨hready, by decide, rfl, _, (Option.some_get hsome).symm,
    replaceUser_remaps_access hready (by decide) rfl
    (fun name map h => by
      rw [hattr, Option.some.injEq, Prod.mk.injEq] at h
      obtain ⟨rfl, rfl⟩ := h
      decide)
    (fun indexRemap h => by
      cases Option.some.inj h
      decide)
    (fun operands h => by
      rw [hslice, Option.some.injEq] at h
      subst h
      decide)
    (by decide) (by decide) (Option.some_get hsome).symm⟩

end Mlir
