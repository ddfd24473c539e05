import MlirCore.Transforms.RemapAccess

/-!
# The memref replacement rewrites every access it visits

Each replacement of `replaceAllMemRefUsesWith` works on what the earlier ones left. A step keeps
the function up to a renaming (`Keeps`) that fixes every `index` value and both memrefs, so a
user seen through it makes the same replacement (`replaceUser_keeps`), and a replacement made
survives later steps (`ReplacedAt.of_keeps`) and the final erasure (`ReplacedAt.of_eraseOps`).
So on a `true` return every user not skipped is gone, an operation in its place reads `newMemRef`
at the remapped location, and old values keep theirs (`replaceAllMemRefUsesWith_remaps_accesses`).
-/

namespace Mlir

/-- The remapped access reads the extra indices and the extra operands only through `value`. -/
theorem ReplaceArgs.remapAccess_congr {a : ReplaceArgs} {f g : Value → Int} (oldAccess : List Int)
    (h : ∀ v ∈ a.extraIndices ++ a.extraOperands, f v = g v) :
    a.remapAccess f oldAccess = a.remapAccess g oldAccess := by
  unfold ReplaceArgs.remapAccess
  rw [List.map_congr_left fun v hv => h v (List.mem_append_left _ hv),
    List.map_congr_left fun v hv => h v (List.mem_append_right _ hv)]

/-- Whether the loop skips a user depends on its kind, not on its operands. -/
@[simp] theorem ReplaceArgs.skips_rename {a : ReplaceArgs} {id : OpId} {op : BodyOp}
    {ρ : Value → Value} : a.skips id (op.rename ρ) = a.skips id op := rfl

/-! ## Users seen through a renaming -/

section Rename

variable {ρ : Value → Value} {m : Value}

/-- A renaming that maps exactly `m` onto `m` keeps where `m` first occurs. -/
theorem findIdx?_map_beq (hρ : ∀ v, ρ v = m ↔ v = m) (l : List Value) :
    (l.map ρ).findIdx? (· == m) = l.findIdx? (· == m) := by
  rw [List.findIdx?_map]
  congr 1
  funext v
  simp [hρ]

/-- A renaming that maps exactly `m` onto `m` keeps the map attribute for `m`. -/
theorem getAffineMapAttrForMemRef_rename (hρ : ∀ v, ρ v = m ↔ v = m) (op : BodyOp) :
    getAffineMapAttrForMemRef (op.rename ρ) m = getAffineMapAttrForMemRef op m := by
  have hget : ∀ i, (op.rename ρ).operands[i]? = some m ↔ op.operands[i]? = some m := fun i => by
    rw [BodyOp.rename_operands, List.getElem?_map]
    cases op.operands[i]? <;> simp [hρ]
  simp only [getAffineMapAttrForMemRef, hget, BodyOp.rename_kind, BodyOp.mapAttr_rename]

/-- A renaming that maps exactly `m` onto `m` renames the operands read for `m`. -/
theorem memRefMapOperands_rename (hρ : ∀ v, ρ v = m ↔ v = m) (op : BodyOp) :
    memRefMapOperands (op.rename ρ) m = (memRefMapOperands op m).map (List.map ρ) := by
  unfold memRefMapOperands
  rw [getAffineMapAttrForMemRef_rename hρ, BodyOp.rename_operands, findIdx?_map_beq hρ]
  rcases op.operands.findIdx? (· == m) with _ | position
  · rfl
  rcases getAffineMapAttrForMemRef op m with _ | ⟨name, map⟩
  · rfl
  exact operandRange_map ρ op.operands _ _

end Rename

/-! ## What the loop keeps -/

/-- A renaming that keeps what a replacement reads: every `index` value of `s`, both memrefs, and
no other value becomes `oldMemRef`. -/
structure KeepsMemRefs (a : ReplaceArgs) (s : FuncBody) (ρ : Value → Value) : Prop where
  index : ∀ v, (s.ir.info v).isIndex → ρ v = v
  oldMemRef : ρ a.oldMemRef = a.oldMemRef
  newMemRef : ρ a.newMemRef = a.newMemRef
  onlyOldMemRef : ∀ v, ρ v = a.oldMemRef → v = a.oldMemRef

/-- What the user loop keeps of the function `s`: everything, up to a renaming that keeps what a
replacement reads. -/
def Keeps (a : ReplaceArgs) (s s' : FuncBody) : Prop :=
  ∃ ρ, Renames s s' ρ ∧ KeepsMemRefs a s ρ

namespace Keeps

variable {a : ReplaceArgs} {s₁ s₂ s₃ : FuncBody}

/-- A function keeps itself. -/
theorem refl (s : FuncBody) : Keeps a s s :=
  ⟨id, Renames.of_extends (List.append_nil _).symm le_rfl fun _ _ => rfl,
    fun _ _ => rfl, rfl, rfl, fun _ => id⟩

/-- Keeping is transitive: an `index` value stays of `index` type. -/
theorem trans (h₁ : Keeps a s₁ s₂) (h₂ : Keeps a s₂ s₃) : Keeps a s₁ s₃ := by
  obtain ⟨ρ₁, hr₁, hk₁⟩ := h₁
  obtain ⟨ρ₂, hr₂, hk₂⟩ := h₂
  refine ⟨ρ₂ ∘ ρ₁, hr₁.trans hr₂, fun v hv => ?_, ?_, ?_,
    fun v hv => hk₁.onlyOldMemRef v (hk₂.onlyOldMemRef _ hv)⟩
  · have hv₂ : (s₂.ir.info v).isIndex :=
      (hr₁.isIndex_eq v (IR.lt_length_of_isIndex hv)).trans hv
    simp only [Function.comp_apply, hk₁.index v hv, hk₂.index v hv₂]
  · simp only [Function.comp_apply, hk₁.oldMemRef, hk₂.oldMemRef]
  · simp only [Function.comp_apply, hk₁.newMemRef, hk₂.newMemRef]

end Keeps

/-! ## Replacements survive later steps -/

section Survive

variable {a : ReplaceArgs} {s s₁ s₂ : FuncBody} {op : BodyOp} {position : Nat} {name : String}
  {oldMap : AffineMap} {oldMapOperands : List Value}

/-- A replacement made in a function that kept `s` replaces the user as it was in `s`: its old map
operands, extra indices and extra operands are old values and keep their values. -/
theorem ReplacedAt.of_renamed {op₁ : BodyOp} {ρ : Value → Value}
    (h : ReplacedAt a s₁ op₁ position name oldMap oldMapOperands s₂) (hren : Renames s s₁ ρ)
    (hkind : op₁.kind = op.kind) (hops : ∀ v ∈ oldMapOperands, v < s.ir.values.length)
    (hargs : ∀ v ∈ a.extraIndices ++ a.extraOperands, v < s.ir.values.length) :
    ReplacedAt a s op position name oldMap oldMapOperands s₂ := by
  obtain ⟨id, op', newMap, newOps, hid, hfind, hkind', hacc, hidx, hval⟩ := h
  refine ⟨id, op', newMap, newOps, hren.nextOpId_le.trans hid, hfind, hkind'.trans hkind, hacc,
    hidx, fun σ => ?_⟩
  rw [hval σ, List.map_congr_left fun v hv => hren.valueOf_eq σ v (hops v hv)]
  exact ReplaceArgs.remapAccess_congr _ fun v hv => hren.valueOf_eq σ v (hargs v hv)

/-- A replacement survives a later step that keeps the function: the operation it created is
renamed, but its memref and map operands are fixed, and the map operands keep their values. -/
theorem ReplacedAt.of_keeps (h : ReplacedAt a s op position name oldMap oldMapOperands s₁)
    (hkeeps : Keeps a s₁ s₂) (hfresh : s₁.Fresh) :
    ReplacedAt a s op position name oldMap oldMapOperands s₂ := by
  obtain ⟨id, op', newMap, newOps, hid, hfind, hkind, hacc, hidx, hval⟩ := h
  obtain ⟨ρ, hren, hρ⟩ := hkeeps
  have hops : ∀ w ∈ newOps, w < s₁.ir.values.length :=
    fun w hw => IR.lt_length_of_isIndex (hidx w hw)
  refine ⟨id, op'.rename ρ, newMap, newOps, hid, ?_, hkind,
    BodyOp.accessAt_rename hacc hρ.newMemRef fun w hw => hρ.index w (hidx w hw),
    fun w hw => (hren.isIndex_eq w (hops w hw)).trans (hidx w hw), fun σ => ?_⟩
  · rw [hren.find?_eq id (hfresh _ (mem_of_lookup_eq_some hfind)), hfind]
    rfl
  · rw [← hval σ, List.map_congr_left fun w hw => hren.valueOf_eq σ w (hops w hw)]

/-- A remapped access survives a later step that keeps the function. -/
theorem RemapsAccess.of_keeps (h : RemapsAccess a s op s₁) (hkeeps : Keeps a s₁ s₂)
    (hfresh : s₁.Fresh) : RemapsAccess a s op s₂ := by
  obtain ⟨position, name, oldMap, oldMapOperands, haccess, hrep⟩ := h
  exact ⟨position, name, oldMap, oldMapOperands, haccess, hrep.of_keeps hkeeps hfresh⟩

/-- Erasing operations keeps the values and every operation not erased, and the erased ones are
gone. -/
theorem eraseOps_spec :
    ∀ {s s' : FuncBody} {ids : List OpId}, eraseOps s ids = some s' →
      s'.ir = s.ir ∧ (∀ k ∉ ids, s'.find? k = s.find? k) ∧ ∀ k ∈ ids, s'.find? k = none
  | _, _, [], h => by cases h; exact ⟨rfl, fun _ _ => rfl, fun _ => nofun⟩
  | _, _, id :: ids, h => by
    obtain ⟨s₁, h₁, h⟩ := Option.bind_eq_some.mp h
    obtain ⟨hir, hkeep, hgone⟩ := eraseOps_spec h
    refine ⟨hir.trans (FuncBody.erase_ir h₁).1, fun k hk => ?_, fun k hk => ?_⟩
    · rw [List.mem_cons, not_or] at hk
      rw [hkeep k hk.2, FuncBody.find?_erase h₁, if_neg hk.1]
    · by_cases hk' : k ∈ ids
      · exact hgone k hk'
      · rw [hkeep k hk', FuncBody.find?_erase h₁, if_pos ((List.mem_cons.mp hk).resolve_right hk')]

/-- A replacement survives erasing operations older than it. -/
theorem ReplacedAt.of_eraseOps {ids : List OpId}
    (h : ReplacedAt a s op position name oldMap oldMapOperands s₁)
    (herase : eraseOps s₁ ids = some s₂) (hids : ∀ k ∈ ids, k < s.nextOpId) :
    ReplacedAt a s op position name oldMap oldMapOperands s₂ := by
  obtain ⟨hir, hkeep, -⟩ := eraseOps_spec herase
  obtain ⟨id, op', newMap, newOps, hid, hfind, rest⟩ := h
  exact ⟨id, op', newMap, newOps, hid,
    (hkeep id fun hm => Nat.lt_irrefl _ (Nat.lt_of_lt_of_le (hids id hm) hid)).trans hfind,
    hir ▸ rest⟩

end Survive

/-! ## One step of the user loop -/

/-- What a user the loop does not skip needs: a symbol-free map with one result per old rank,
valid-dim map and extra operands, and results of the function, not `index`, not either memref. -/
structure ReplaceableUser (a : ReplaceArgs) (s : FuncBody) (op : BodyOp) : Prop where
  map : ∀ name map, getAffineMapAttrForMemRef op a.oldMemRef = some (name, map) →
    map.isWellFormed ∧ map.numSymbols = 0 ∧ map.results.length = a.oldMemRefRank
  operands : ∀ operands, memRefMapOperands op a.oldMemRef = some operands →
    ∀ v ∈ operands ++ a.extraOperands, isValidDim s.ir v
  results : ∀ r ∈ op.results, r < s.ir.values.length ∧ (s.ir.info r).isIndex = false ∧
    r ≠ a.newMemRef ∧ r ≠ a.oldMemRef

section Step

variable {a : ReplaceArgs} {s s₁ s₂ : FuncBody} {opInst : OpId} {op : BodyOp}
  {ρ : Value → Value}

/-- A user of `s`, seen in a function that kept `s`, makes the replacement it would have made in
`s`, keeping the function ready, fresh and kept. -/
theorem replaceUser_keeps (hready : s₁.ir.ComposeReady) (hfresh : s₁.Fresh)
    (hpre : a.preconditionsHold)
    (hremap : ∀ indexRemap, a.indexRemap = some indexRemap → indexRemap.isWellFormed)
    (hextra : ∀ v ∈ a.extraIndices, v < s.ir.values.length)
    (hold : a.oldMemRef < s.ir.values.length) (hren : Renames s s₁ ρ) (hρ : KeepsMemRefs a s ρ)
    (huser : ReplaceableUser a s op) (h : replaceUser a s₁ opInst (op.rename ρ) = some s₂) :
    s₂.ir.ComposeReady ∧ s₂.Fresh ∧ Keeps a s₁ s₂ ∧ RemapsAccess a s op s₂ := by
  have hiff : ∀ v, ρ v = a.oldMemRef ↔ v = a.oldMemRef :=
    fun v => ⟨hρ.onlyOldMemRef v, fun hv => hv ▸ hρ.oldMemRef⟩
  have hattr := getAffineMapAttrForMemRef_rename hiff op
  -- the old map operands are valid dims, so the renaming keeps them
  have hslice : memRefMapOperands (op.rename ρ) a.oldMemRef = memRefMapOperands op a.oldMemRef := by
    rw [memRefMapOperands_rename hiff]
    cases hops : memRefMapOperands op a.oldMemRef with
    | none => rfl
    | some ops =>
      rw [Option.map_some', List.map_congr_left fun v hv => hρ.index v
        (isIndex_of_isValidDim (huser.operands ops hops v (List.mem_append_left _ hv))),
        List.map_id']
  obtain ⟨hready₂, hfresh₂, ⟨ρ', hren', hfix, hfar⟩, position, name, oldMap, ops, hpos, hattr',
      hslice', -, hrep⟩ :=
    replaceUser_spec hready hfresh hpre (fun name map h => huser.map name map (hattr ▸ h)) hremap
      (fun ops h v hv => hren.isValidDim_of v (huser.operands ops (hslice ▸ h) v hv))
      (fun v hv => Nat.lt_of_lt_of_le (hextra v hv) hren.length_le)
      (fun r hr => ⟨Nat.lt_of_lt_of_le (huser.results r hr).1 hren.length_le,
        (hren.isIndex_eq r (huser.results r hr).1).trans (huser.results r hr).2.1,
        (huser.results r hr).2.2.1⟩) h
  have hvalid := huser.operands ops (hslice ▸ hslice')
  refine ⟨hready₂, hfresh₂, ⟨ρ', hren', fun v hv => hfix v fun hr => ?_,
      hfix _ fun hr => (huser.results _ hr).2.2.2 rfl, hfix _ fun hr => (huser.results _ hr).2.2.1 rfl,
      fun v hv => ?_⟩,
    position, name, oldMap, ops,
    BodyOp.accessAt_of_memRefMapOperands ((findIdx?_map_beq hiff op.operands).symm.trans hpos)
      (hattr ▸ hattr') (hslice ▸ hslice'),
    hrep.of_renamed hren rfl (fun v hv => lt_length_of_isValidDim (hvalid v (List.mem_append_left _ hv)))
      fun v hv => ?_⟩
  · -- an `index` value is not an old result
    have := (hren.isIndex_eq v (huser.results v hr).1).symm.trans hv
    rw [(huser.results v hr).2.1] at this
    cases this
  · -- the new values lie past the old ones, and `oldMemRef` is an old value
    rcases hfar v with h | h
    · exact h ▸ hv
    · exact absurd (hv ▸ h) (Nat.not_le.mpr (Nat.lt_of_lt_of_le hold hren.length_le))
  · rcases List.mem_append.mp hv with hv | hv
    · exact hextra v hv
    · exact lt_length_of_isValidDim (hvalid v (List.mem_append_right _ hv))

end Step

/-! ## The whole loop -/

/-- The user loop's invariant: `s₁` kept `s` and is ready and fresh, and each collected user is
an operation of `s` whose access is replaced in `s₁`. -/
structure UserLoopInvariant (a : ReplaceArgs) (s s₁ : FuncBody) (opsToErase : List OpId) :
    Prop where
  keeps : Keeps a s s₁
  ready : s₁.ir.ComposeReady
  fresh : s₁.Fresh
  replaced : ∀ u ∈ opsToErase, u < s.nextOpId ∧ ∀ op, s.find? u = some op → RemapsAccess a s op s₁

section Loop

variable {a : ReplaceArgs} {s : FuncBody}

/-- The user loop keeps its invariant over users of `s`, and collects every user it does not
skip. -/
theorem userLoop_invariant (hfresh : s.Fresh) (hpre : a.preconditionsHold)
    (hremap : ∀ indexRemap, a.indexRemap = some indexRemap → indexRemap.isWellFormed)
    (hextra : ∀ v ∈ a.extraIndices, v < s.ir.values.length)
    (hold : a.oldMemRef < s.ir.values.length) :
    ∀ {users : List OpId} {s₁ s₂ : FuncBody} {opsToErase ops : List OpId},
      (∀ u ∈ users, ∃ op, s.find? u = some op ∧ (a.skips u op = false → ReplaceableUser a s op)) →
      UserLoopInvariant a s s₁ opsToErase →
      userLoop a s₁ users opsToErase = some (.finished s₂ ops) →
      UserLoopInvariant a s s₂ ops ∧
        ∀ u ∈ users, ∀ op, s.find? u = some op → a.skips u op = false → u ∈ ops
  | [], _, _, _, _, _, hinv, h => by
    simp only [userLoop, Option.some.injEq, UserLoopResult.finished.injEq] at h
    obtain ⟨rfl, rfl⟩ := h
    exact ⟨hinv, fun _ => nofun⟩
  | u :: users, s₁, s₂, opsToErase, ops, husers, hinv, h => by
    obtain ⟨op, hop, huser⟩ := husers u (List.mem_cons_self _ _)
    have hu : u < s.nextOpId := hfresh _ (mem_of_lookup_eq_some hop)
    obtain ⟨ρ, hren, hρ⟩ := hinv.keeps
    have hrest := fun v hv => husers v (List.mem_cons_of_mem u hv)
    obtain ⟨op₁, hop₁, ⟨hskip, h⟩ | ⟨-, -, h⟩ | ⟨hskip, -, s₁', hstep, h⟩⟩ :=
      userLoop_cons_eq_some h
    all_goals rw [hren.find?_eq u hu, hop, Option.map_some', Option.some.injEq] at hop₁
    all_goals subst hop₁
    · -- a skipped user
      obtain ⟨hinv', hcollect⟩ := userLoop_invariant hfresh hpre hremap hextra hold hrest hinv h
      refine ⟨hinv', fun v hv op' hop' hskip' => ?_⟩
      rcases List.mem_cons.mp hv with rfl | hv
      · rw [hop, Option.some.injEq] at hop'
        subst hop'
        rw [ReplaceArgs.skips_rename, hskip'] at hskip
        cases hskip
      · exact hcollect v hv op' hop' hskip'
    · cases h
    · -- a replaced user
      rw [ReplaceArgs.skips_rename] at hskip
      obtain ⟨hready', hfresh', hkeeps', hremaps⟩ := replaceUser_keeps hinv.ready hinv.fresh hpre
        hremap hextra hold hren hρ (huser hskip) hstep
      have hinv₁ : UserLoopInvariant a s s₁' (opsToErase ++ [u]) :=
        ⟨hinv.keeps.trans hkeeps', hready', hfresh', fun w hw => by
          rcases List.mem_append.mp hw with hw | hw
          · exact ⟨(hinv.replaced w hw).1,
              fun op' hop' => ((hinv.replaced w hw).2 op' hop').of_keeps hkeeps' hinv.fresh⟩
          · rw [List.mem_singleton.mp hw]
            refine ⟨hu, fun op' hop' => ?_⟩
            rw [hop, Option.some.injEq] at hop'
            exact hop' ▸ hremaps⟩
      obtain ⟨hinv', hcollect⟩ := userLoop_invariant hfresh hpre hremap hextra hold hrest hinv₁ h
      obtain ⟨rewritten, hops, -⟩ := userLoop_finished h
      refine ⟨hinv', fun v hv op' hop' hskip' => ?_⟩
      rcases List.mem_cons.mp hv with rfl | hv
      · rw [hops]
        exact List.mem_append_left _ (List.mem_append_right _ (List.mem_singleton_self _))
      · exact hcollect v hv op' hop' hskip'

end Loop

/-- What a `true` answer means: the entry assertions held, the user loop ran to its end, and the
collected users were erased. -/
theorem replaceAllMemRefUsesWith_eq_some_true {a : ReplaceArgs} {s s' : FuncBody}
    {users : List OpId} (h : replaceAllMemRefUsesWith a s users = some (true, s')) :
    a.preconditionsHold ∧ ∃ s₁ ops, userLoop a s users [] = some (.finished s₁ ops) ∧
      eraseOps s₁ ops = some s' := by
  unfold replaceAllMemRefUsesWith at h
  by_cases hpre : a.preconditionsHold = true
  · rw [if_neg (by simp [hpre])] at h
    refine ⟨hpre, ?_⟩
    rcases hloop : userLoop a s users [] with _ | ⟨s₁⟩ | ⟨s₁, ops⟩ <;> rw [hloop] at h
    · cases h
    · cases h
    · obtain ⟨s'', herase, hs⟩ := Option.map_eq_some'.mp h
      cases hs
      exact ⟨s₁, ops, rfl, herase⟩
  · rw [if_pos (by simpa using hpre)] at h
    cases h

/-- The memref replacement rewrites every access it visits: on a `true` return old values keep
theirs, and each user not skipped is replaced by one reading the remapped location. -/
theorem replaceAllMemRefUsesWith_remaps_accesses {a : ReplaceArgs} {s s' : FuncBody}
    {users : List OpId} (hready : s.ir.ComposeReady) (hfresh : s.Fresh)
    (hremap : ∀ indexRemap, a.indexRemap = some indexRemap → indexRemap.isWellFormed)
    (hextra : ∀ v ∈ a.extraIndices, v < s.ir.values.length)
    (hold : a.oldMemRef < s.ir.values.length)
    (husers : ∀ u ∈ users, ∃ op, s.find? u = some op ∧ (a.skips u op = false → ReplaceableUser a s op))
    (h : replaceAllMemRefUsesWith a s users = some (true, s')) :
    (∀ σ, ∀ v < s.ir.values.length, s'.ir.valueOf σ v = s.ir.valueOf σ v) ∧
      ∀ u ∈ users, ∀ op, s.find? u = some op → a.skips u op = false →
        s'.find? u = none ∧ RemapsAccess a s op s' := by
  obtain ⟨hpre, s₁, ops, hloop, herase⟩ := replaceAllMemRefUsesWith_eq_some_true h
  obtain ⟨hinv, hcollected⟩ := userLoop_invariant hfresh hpre hremap hextra hold husers
    (⟨Keeps.refl s, hready, hfresh, fun _ => nofun⟩ : UserLoopInvariant a s s []) hloop
  obtain ⟨hir, -, hgone⟩ := eraseOps_spec herase
  obtain ⟨ρ, hren, -⟩ := hinv.keeps
  refine ⟨fun σ v hv => by rw [hir]; exact hren.valueOf_eq σ v hv, fun u hu op hop hskip => ?_⟩
  have hmem := hcollected u hu op hop hskip
  obtain ⟨position, name, oldMap, oldMapOperands, haccess, hrep⟩ := (hinv.replaced u hmem).2 op hop
  exact ⟨hgone u hmem, position, name, oldMap, oldMapOperands, haccess,
    hrep.of_eraseOps herase fun k hk => (hinv.replaced k hk).1⟩

/-- Replacing `%A` by `%B` through `(d0) -> (d0 * 2)` in the function of `loadAtI`: the one user is
erased, and a load of `%B[%i * 2]` takes its place. -/
theorem replaceAllMemRefUsesWith_remaps_accesses_loadAtI :
    loadAtIBody.ir.ComposeReady ∧ loadAtIBody.Fresh ∧
      ∃ s', replaceAllMemRefUsesWith doubleIntoB loadAtIBody [0] = some (true, s') ∧
        (∀ σ, ∀ v < loadAtIBody.ir.values.length, s'.ir.valueOf σ v = loadAtIBody.ir.valueOf σ v) ∧
        ∀ u ∈ [0], ∀ op, loadAtIBody.find? u = some op → doubleIntoB.skips u op = false →
          s'.find? u = none ∧ RemapsAccess doubleIntoB loadAtIBody op s' := by
  have hready : loadAtIBody.ir.ComposeReady := ⟨by decide, by decide, by decide⟩
  have hattr : getAffineMapAttrForMemRef loadAtI doubleIntoB.oldMemRef =
      some ("map", ⟨1, 0, [.dim 0]⟩) := rfl
  have hslice : memRefMapOperands loadAtI doubleIntoB.oldMemRef = some [1] := rfl
  have huser : ReplaceableUser doubleIntoB loadAtIBody loadAtI :=
    ⟨fun name map h => by
      rw [hattr, Option.some.injEq, Prod.mk.injEq] at h
      obtain ⟨rfl, rfl⟩ := h
      decide,
    fun operands h => by
      rw [hslice, Option.some.injEq] at h
      subst h
      decide,
    by decide⟩
  obtain ⟨⟨b, s'⟩, h, rfl⟩ := Option.map_eq_some'.mp (show
    (replaceAllMemRefUsesWith doubleIntoB loadAtIBody [0]).map Prod.fst = some true by decide)
  exact ⟨hready, by decide, s', h, replaceAllMemRefUsesWith_remaps_accesses hready (by decide)
    (fun indexRemap h => by cases Option.some.inj h; decide) (by decide) (by decide)
    (fun u hu => by
      rw [List.mem_singleton.mp hu]
      exact ⟨loadAtI, rfl, fun _ => huser⟩) h⟩

end Mlir
