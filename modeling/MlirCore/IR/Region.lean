import Mathlib.Data.List.Forall2
import MlirCore.IR.Traits

/-!
# Terminators and the regions around them

`verifyIsTerminator` checks that an operation ends its block and that each successor lies in its
region and takes, through `verifyBBArguments`, its operand group with the block's argument types.
`ensureRegionTerminator` gives an empty region a block and pushes a terminator at the end of the
last block unless it already ends with one. Blocks are `BlockOrderState`'s and operations
`Operation::create`'s. Linking any operation after a terminator makes it fail with "must be the
last operation in the parent block"; `ensureRegionTerminator` keeps the block invariant and is
idempotent.
-/

namespace Mlir

/-- A region, by identity. -/
abbrev RegionId := Nat

/-- `emitError(message)`: an error that does not name the operation. -/
def emitError (message : String) : Except String Unit := .error message

/-- What the terminator checks read of the IR: the block state, each operation's fields, each
block's region and argument types, and each value's type. -/
structure IRContext where
  layout : BlockOrderState
  operation : OpId → Operation
  parentRegion : BlockId → RegionId
  argumentTypes : BlockId → List TypeId
  typeOf : Value → TypeId

namespace IRContext

variable (ctx : IRContext)

/-- `Operation::getContainingRegion`: the region of the operation's block, if it is in one. -/
def getContainingRegion (op : OpId) : Option RegionId :=
  (ctx.layout.parent op).map ctx.parentRegion

/-- The loop of `verifyBBArguments` from argument `i` on: the first operand whose type is not its
argument's is reported by its position. -/
def verifyBBArgumentTypes : Nat → List Value → List TypeId → Except String Unit
  | i, operand :: operands, argument :: arguments =>
    if ctx.typeOf operand ≠ argument then emitError ("type mismatch in bb argument #" ++ toString i)
    else verifyBBArgumentTypes (i + 1) operands arguments
  | _, _, _ => pure ()

/-- `verifyBBArguments`: a branch passes as many operands as the target block has arguments,
each of its argument's type. -/
def verifyBBArguments (operands : List Value) (destBB : BlockId) : Except String Unit :=
  if operands.length ≠ (ctx.argumentTypes destBB).length then
    emitError ("branch has " ++ toString operands.length ++ " operands, but target block has " ++
      toString (ctx.argumentTypes destBB).length)
  else ctx.verifyBBArgumentTypes 0 operands (ctx.argumentTypes destBB)

/-- The loop of `verifyTerminatorSuccessors` from successor `i` on: each successor must be a
block of `parent`, the terminator's region, and take its operands. -/
def verifySuccessors (op : OpId) (parent : Option RegionId) :
    Nat → List BlockId → Except String Unit
  | _, [] => pure ()
  | i, succ :: succs =>
    if some (ctx.parentRegion succ) ≠ parent then
      emitError "reference to block defined in another region"
    else
      match (ctx.operation op).getSuccessorOperands i with
      | some operands => do
        ctx.verifyBBArguments operands succ
        verifySuccessors op parent (i + 1) succs
      | none => .error "only terminators may have successors"

/-- `verifyTerminatorSuccessors`. -/
def verifyTerminatorSuccessors (op : OpId) : Except String Unit :=
  ctx.verifySuccessors op (ctx.getContainingRegion op) 0 (ctx.operation op).successors

/-- `OpTrait::impl::verifyIsTerminator`: the operation is the last of its block, and its
successors, if it has any, verify. -/
def verifyIsTerminator (op : OpId) : Except String Unit :=
  match ctx.layout.parent op with
  | some b =>
    if (ctx.layout.blocks b).operations.getLast? ≠ some op then
      emitOpError (ctx.operation op).name.name "must be the last operation in the parent block"
    else if (ctx.operation op).successors.length ≠ 0 then ctx.verifyTerminatorSuccessors op
    else pure ()
  | none => emitOpError (ctx.operation op).name.name "must be the last operation in the parent block"

/-! ## What the checks accept -/

variable {ctx}

/-- The argument loop passes exactly when the operands have the arguments' types in order. -/
theorem verifyBBArgumentTypes_eq_ok :
    ∀ (i : Nat) (operands : List Value) (arguments : List TypeId),
      operands.length = arguments.length →
      (ctx.verifyBBArgumentTypes i operands arguments = .ok () ↔ operands.map ctx.typeOf = arguments)
  | _, [], [], _ => by simp [verifyBBArgumentTypes, pure, Except.pure]
  | i, operand :: operands, argument :: arguments, h => by
    rw [verifyBBArgumentTypes, List.map_cons, List.cons.injEq,
      ← verifyBBArgumentTypes_eq_ok (i + 1) operands arguments (by simpa using h)]
    by_cases ht : ctx.typeOf operand = argument <;> simp [ht, emitError]
  | _, [], _ :: _, h | _, _ :: _, [], h => absurd h (by simp)

/-- A branch's operands are accepted exactly when they have the target block's argument types,
in order. -/
theorem verifyBBArguments_eq_ok {operands : List Value} {destBB : BlockId} :
    ctx.verifyBBArguments operands destBB = .ok () ↔
      operands.map ctx.typeOf = ctx.argumentTypes destBB := by
  unfold verifyBBArguments
  split_ifs with h
  · simp only [emitError, reduceCtorEq, false_iff]
    exact fun hmap => h (by rw [← hmap, List.length_map])
  · exact verifyBBArgumentTypes_eq_ok 0 operands _ (not_not.mp h)

/-- The successor loop passes exactly when each successor lies in the region and takes its
operand group with its argument types, given the groups `getSuccessorOperands` returns. -/
theorem verifySuccessors_eq_ok {op : OpId} {region : RegionId} :
    ∀ (i : Nat) (succs : List BlockId) (groups : List (List Value)),
      (∀ j, (ctx.operation op).getSuccessorOperands (i + j) = groups[j]?) →
      succs.length = groups.length →
      (ctx.verifySuccessors op (some region) i succs = .ok () ↔
        List.Forall₂ (fun succ group => ctx.parentRegion succ = region ∧
          group.map ctx.typeOf = ctx.argumentTypes succ) succs groups)
  | _, [], [], _, _ => by simp [verifySuccessors, pure, Except.pure]
  | i, succ :: succs, group :: groups, hgroups, hlen => by
    have hi : (ctx.operation op).getSuccessorOperands i = some group := by simpa using hgroups 0
    have ih := @verifySuccessors_eq_ok op region (i + 1) succs groups
      (fun j => by simpa [Nat.add_right_comm] using hgroups (j + 1)) (by simpa using hlen)
    rw [verifySuccessors, hi, List.forall₂_cons, ← ih, ← verifyBBArguments_eq_ok]
    by_cases hr : ctx.parentRegion succ = region
    · simp [hr, except_bind_eq_ok]
    · simp [hr, emitError]
  | _, [], _ :: _, _, h | _, _ :: _, [], _, h => absurd h (by simp)

/-- A terminator partitioned into successor groups verifies exactly when it ends its block and
each successor is a block of its region taking its group with the argument types in order. -/
theorem verifyIsTerminator_eq_ok {op : OpId} {leading : List Value} {groups : List (List Value)}
    (hp : (ctx.operation op).HasPartition leading groups) :
    ctx.verifyIsTerminator op = .ok () ↔
      ∃ b, ctx.layout.parent op = some b ∧ (ctx.layout.blocks b).operations.getLast? = some op ∧
        List.Forall₂ (fun succ group => ctx.parentRegion succ = ctx.parentRegion b ∧
          group.map ctx.typeOf = ctx.argumentTypes succ) (ctx.operation op).successors groups := by
  unfold verifyIsTerminator
  rcases hb : ctx.layout.parent op with _ | b
  · simp [emitOpError]
  · have hsucc := @verifySuccessors_eq_ok ctx op (ctx.parentRegion b) 0 _
      groups (fun j => by rw [Nat.zero_add, hp.getSuccessorOperands]) hp.length_groups.symm
    by_cases hlast : (ctx.layout.blocks b).operations.getLast? = some op
    · by_cases hs : (ctx.operation op).successors.length = 0
      · have hgroups : groups = [] := List.eq_nil_of_length_eq_zero (hp.length_groups.trans hs)
        simp [hlast, hs, hgroups, List.eq_nil_of_length_eq_zero hs, pure, Except.pure]
      · simp [hlast, hs, verifyTerminatorSuccessors, getContainingRegion, hb, hsucc]
    · simp [hlast, emitOpError]

/-- `br ^bb1(%5)`: one successor, block 1, taking value 5. -/
def branchOp : Operation := ⟨⟨"br", false⟩, [5], [], [], [], [1], [1], 0, false⟩

/-- A function whose region 0 has two blocks: block 0 holds a constant (operation 0) and
`branchOp` (operation 1); block 1 takes one argument of type 7, the type of every value. -/
def branchContext : IRContext where
  layout := ⟨fun b => if b = 0 then ⟨[0, 1], false⟩ else Block.empty,
    fun op => if op ≤ 1 then some 0 else none, fun _ => 0⟩
  operation op := if op = 1 then branchOp else ⟨⟨"constant", true⟩, [], [5], [7], [], [], [], 0, false⟩
  parentRegion _ := 0
  argumentTypes b := if b = 1 then [7] else []
  typeOf _ := 7

/-- The branch of `branchContext` verifies as a terminator. -/
theorem verifyIsTerminator_eq_ok_branch : branchContext.verifyIsTerminator 1 = .ok () :=
  (verifyIsTerminator_eq_ok (show branchOp.HasPartition [] [[5]] from ⟨rfl, rfl, rfl, fun _ => rfl⟩)).mpr
    ⟨0, rfl, rfl, by simp [branchContext, branchOp]⟩

example : branchContext.verifyIsTerminator 0 =
    emitOpError "constant" "must be the last operation in the parent block" := rfl

example : { branchContext with typeOf := fun _ => 8 }.verifyIsTerminator 1 =
    emitError "type mismatch in bb argument #0" := rfl

/-- Linking an operation in at the end of a block makes every operation that was in it fail
`verifyIsTerminator`: the check that it is the last operation of its block. -/
theorem verifyIsTerminator_after_insert {t x : OpId} {b : BlockId} {layout' : BlockOrderState}
    (hparent : ctx.layout.parent t = some b) (hinsert : ctx.layout.insert b none x = some layout') :
    { ctx with layout := layout' }.verifyIsTerminator t =
      emitOpError (ctx.operation t).name.name "must be the last operation in the parent block" := by
  obtain ⟨hx, -, rfl⟩ := BlockOrderState.insert_eq_some hinsert
  have hne : t ≠ x := by rintro rfl; simp [hparent] at hx
  simp [verifyIsTerminator, Function.update_noteq hne, hparent, insertBefore, hne.symm]

/-- Operation 2 linked in after the branch of `branchContext` makes the branch fail. -/
theorem verifyIsTerminator_after_insert_branch :
    ∃ layout', branchContext.layout.insert 0 none 2 = some layout' ∧
      { branchContext with layout := layout' }.verifyIsTerminator 1 =
        emitOpError "br" "must be the last operation in the parent block" :=
  ⟨_, rfl, @verifyIsTerminator_after_insert branchContext 1 2 0 _ rfl rfl⟩

end IRContext

/-! ## `ensureRegionTerminator` -/

namespace BlockOrderState

/-- The end of `ensureRegionTerminator` on the region's last block: nothing when the block ends
with a known terminator, and otherwise `terminator` pushed at its end. -/
def ensureBlockTerminator (isKnownTerminator : OpId → Bool) (s : BlockOrderState)
    (block : BlockId) (terminator : OpId) : Option BlockOrderState :=
  if (s.blocks block).operations.getLast?.any isKnownTerminator then some s
  else s.insert block none terminator

end BlockOrderState

/-- `impl::ensureRegionTerminator`: an empty region gets `newBlock`, then the last block gets
`terminator` unless it ends with a known terminator; `none` where the push asserts. -/
def ensureRegionTerminator (isKnownTerminator : OpId → Bool) (s : BlockOrderState)
    (region : List BlockId) (newBlock : BlockId) (terminator : OpId) :
    Option (BlockOrderState × List BlockId) :=
  match region with
  | [] => ((s.setBlock newBlock Block.empty).ensureBlockTerminator isKnownTerminator newBlock
      terminator).map (·, [newBlock])
  | b :: bs => (s.ensureBlockTerminator isKnownTerminator ((b :: bs).getLast (List.cons_ne_nil b bs))
      terminator).map (·, b :: bs)

namespace BlockOrderState

variable {isKnownTerminator : OpId → Bool} {s : BlockOrderState} {block : BlockId}
  {terminator : OpId}

/-- A new empty block keeps the invariant when no operation was in the block before. -/
theorem Consistent.setBlock_empty (hs : s.Consistent) (hnew : (s.blocks block).operations = []) :
    (s.setBlock block Block.empty).Consistent where
  parent_eq_some_iff c op := by
    by_cases hc : c = block
    · subst hc; simp [Block.empty, hs.parent_eq_some_iff, hnew]
    · simp [Function.update_noteq hc, hs.parent_eq_some_iff]
  nodup c := by
    by_cases hc : c = block
    · subst hc; simp [Block.empty]
    · simp [Function.update_noteq hc, hs.nodup c]
  ordered c := by
    by_cases hc : c = block
    · subst hc; simp [Block.empty]
    · simpa [Function.update_noteq hc] using hs.ordered c

/-- A block that ends with a known terminator is left alone. -/
theorem ensureBlockTerminator_of_ends
    (hend : (s.blocks block).operations.getLast?.any isKnownTerminator = true) (terminator : OpId) :
    s.ensureBlockTerminator isKnownTerminator block terminator = some s := by
  simp [ensureBlockTerminator, hend]

/-- With a new known terminator, the block ends with a known terminator afterwards, the
invariant holds, and the only operation added is the terminator, at the end of the block. -/
theorem ensureBlockTerminator_spec (hs : s.Consistent) (hfresh : s.parent terminator = none)
    (hknown : isKnownTerminator terminator = true) :
    ∃ s', s.ensureBlockTerminator isKnownTerminator block terminator = some s' ∧ s'.Consistent ∧
      (s'.blocks block).operations.getLast?.any isKnownTerminator = true ∧
      ∀ b, (s'.blocks b).operations = (s.blocks b).operations ∨
        b = block ∧ (s'.blocks b).operations = (s.blocks b).operations ++ [terminator] := by
  unfold ensureBlockTerminator
  split_ifs with hend
  · exact ⟨s, rfl, hs, hend, fun _ => .inl rfl⟩
  · obtain ⟨s', hins⟩ := Option.isSome_iff_exists.mp
      (show (s.insert block none terminator).isSome by simp [insert, addNodeToList, hfresh, validPosition])
    obtain ⟨-, -, rfl⟩ := insert_eq_some hins
    refine ⟨_, hins, hs.insert hins, by simp [insertBefore, hknown], fun b => ?_⟩
    by_cases hb : b = block
    · subst hb; simp [insertBefore]
    · simp [Function.update_noteq hb]

end BlockOrderState

open BlockOrderState in
/-- `ensureRegionTerminator` with a new block and known terminator leaves a non-empty region
ending with a known terminator, adds only that, keeps the block invariant and is idempotent. -/
theorem ensureRegionTerminator_spec {isKnownTerminator : OpId → Bool} {s : BlockOrderState}
    {region : List BlockId} {newBlock : BlockId} {terminator : OpId} (hs : s.Consistent)
    (hnew : region = [] → (s.blocks newBlock).operations = []) (hfresh : s.parent terminator = none)
    (hknown : isKnownTerminator terminator = true) :
    ∃ s' region', ensureRegionTerminator isKnownTerminator s region newBlock terminator =
        some (s', region') ∧ region' = (if region = [] then [newBlock] else region) ∧
      s'.Consistent ∧
      (∃ last, region'.getLast? = some last ∧
        (s'.blocks last).operations.getLast?.any isKnownTerminator = true ∧
        ∀ b, (s'.blocks b).operations = (s.blocks b).operations ∨
          b = last ∧ (s'.blocks b).operations = (s.blocks b).operations ++ [terminator]) ∧
      ∀ newBlock' terminator', ensureRegionTerminator isKnownTerminator s' region' newBlock'
        terminator' = some (s', region') := by
  cases region with
  | nil =>
    have hnew := hnew rfl
    obtain ⟨s', h, hc, hend, hops⟩ := @ensureBlockTerminator_spec _ _ newBlock _
      (hs.setBlock_empty hnew) (by simpa using hfresh) hknown
    refine ⟨s', [newBlock], by simp [ensureRegionTerminator, h], rfl, hc,
      ⟨newBlock, rfl, hend, fun b => ?_⟩,
      fun _ _ => by simp [ensureRegionTerminator, ensureBlockTerminator_of_ends hend]⟩
    by_cases hb : b = newBlock
    · subst hb; simpa [Block.empty, hnew] using hops b
    · simpa [Function.update_noteq hb] using hops b
  | cons b bs =>
    obtain ⟨s', h, hc, hend, hops⟩ := @ensureBlockTerminator_spec _ _
      ((b :: bs).getLast (List.cons_ne_nil b bs)) _ hs hfresh hknown
    exact ⟨s', b :: bs, by simp [ensureRegionTerminator, h], by simp, hc,
      ⟨_, List.getLast?_eq_getLast _ _, hend, hops⟩,
      fun _ _ => by simp [ensureRegionTerminator, ensureBlockTerminator_of_ends hend]⟩

/-- The blocks of `branchContext` keep the invariant of `BlockOrderState`. -/
theorem branchContext_layout_consistent : IRContext.branchContext.layout.Consistent where
  parent_eq_some_iff b op := by
    by_cases hb : b = 0
    · subst hb; simpa [IRContext.branchContext] using Nat.le_one_iff_eq_zero_or_eq_one
    · simp [IRContext.branchContext, hb, Block.empty, Ne.symm hb]
  nodup b := by by_cases hb : b = 0 <;> simp [IRContext.branchContext, hb, Block.empty]
  ordered b := by by_cases hb : b = 0 <;> simp [IRContext.branchContext, hb, Block.empty]

/-- An empty region of `branchContext` gets block 2 with the terminator, operation 3. -/
theorem ensureRegionTerminator_spec_emptyRegion :
    ∃ s' region', ensureRegionTerminator (· = 3) IRContext.branchContext.layout [] 2 3 =
      some (s', region') ∧ region' = [2] ∧ (s'.blocks 2).operations = [3] := by
  obtain ⟨s', region', h, rfl, -, ⟨last, hlast, hend, hops⟩, -⟩ :=
    @ensureRegionTerminator_spec (· = 3) _ [] 2 3 branchContext_layout_consistent (fun _ => rfl) rfl rfl
  obtain rfl : last = 2 := by simpa using hlast.symm
  refine ⟨s', _, h, rfl, ?_⟩
  rcases hops 2 with h2 | ⟨-, h2⟩
  · simp [h2, IRContext.branchContext, Block.empty] at hend
  · simpa [IRContext.branchContext, Block.empty] using h2

end Mlir
