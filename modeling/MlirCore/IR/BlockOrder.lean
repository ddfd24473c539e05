import Mathlib.Logic.Function.Basic
import Mathlib.Data.List.Nodup

/-!
# Operation order in a block

`Operation::isBeforeInBlock` compares cached order indices. The `ilist` hooks invalidate a
block's cached order on insertion and splicing and leave it on removal, and a query on an
invalid block recomputes it; `Block`'s flag and `recomputeInstOrder` are not in this repository
and are modelled from the spec. Every reachable state keeps the operations' block fields in step
with the lists and a valid block's indices increasing, so every query answers whether the first
operation comes before the second in the list.
-/

namespace Mlir

/-- An operation, by identity. -/
abbrev OpId := Nat

/-- A block, by identity. -/
abbrev BlockId := Nat

/-- A block's operation list and its order flag (`isInstOrderValid`). -/
@[ext]
structure Block where
  operations : List OpId
  orderValid : Bool

/-- Modelled from the spec: a new block has no operations and a valid order. -/
def Block.empty : Block := ⟨[], true⟩

/-- The blocks of a function, and the `block` and `orderIndex` fields of every operation. -/
@[ext]
structure BlockOrderState where
  blocks : BlockId → Block
  parent : OpId → Option BlockId
  orderIndex : OpId → Nat

/-- `ilist::insert`'s position: before an operation of the list, or at `end()`. -/
def validPosition (l : List OpId) : Option OpId → Bool
  | none => true
  | some w => l.contains w

/-- The list with `op` linked in before `before`, or at the end. -/
def insertBefore (l : List OpId) (op : OpId) : Option OpId → List OpId
  | none => l ++ [op]
  | some w => l.take (l.indexOf w) ++ op :: l.drop (l.indexOf w)

/-- The position after `op` in its list: the next operation, or `end()`. -/
def nextOf (l : List OpId) (op : OpId) : Option OpId := (l.drop (l.indexOf op + 1)).head?

/-- The order indices after `recomputeInstOrder`'s loop numbers `ops` from `i` on. -/
def numberFrom (orderIndex : OpId → Nat) : Nat → List OpId → OpId → Nat
  | _, [] => orderIndex
  | i, op :: rest => numberFrom (Function.update orderIndex op i) (i + 1) rest

namespace BlockOrderState

/-- No block holds an operation. -/
def init : BlockOrderState := ⟨fun _ => Block.empty, fun _ => none, fun _ => 0⟩

/-- Block `b` replaced. -/
def setBlock (s : BlockOrderState) (b : BlockId) (block : Block) : BlockOrderState :=
  { s with blocks := Function.update s.blocks b block }

/-- Block `b`'s operation list replaced. -/
def setOperations (s : BlockOrderState) (b : BlockId) (operations : List OpId) :
    BlockOrderState :=
  s.setBlock b { s.blocks b with operations }

/-- Modelled from the spec: `Block::invalidateInstOrder`. -/
def invalidateInstOrder (s : BlockOrderState) (b : BlockId) : BlockOrderState :=
  s.setBlock b { s.blocks b with orderValid := false }

/-- Modelled from the spec: `Block::recomputeInstOrder` numbers the operations in list order and
marks the order valid. -/
def recomputeInstOrder (s : BlockOrderState) (b : BlockId) : BlockOrderState :=
  { s.setBlock b { s.blocks b with orderValid := true } with
    orderIndex := numberFrom s.orderIndex 0 (s.blocks b).operations }

/-- `addNodeToList`: the operation must have no block; it gets `b`, whose order is invalidated. -/
def addNodeToList (s : BlockOrderState) (b : BlockId) (op : OpId) : Option BlockOrderState :=
  if s.parent op = none then
    some ({ s with parent := Function.update s.parent op (some b) }.invalidateInstOrder b)
  else none

/-- `removeNodeFromList`: the operation must have a block; it is cleared. -/
def removeNodeFromList (s : BlockOrderState) (op : OpId) : Option BlockOrderState :=
  if (s.parent op).isSome then some { s with parent := Function.update s.parent op none }
  else none

/-- `transferNodesFromList` for one operation moved from `source` into `b`: it invalidates the
destination's order and, between blocks, sets the operation's block. -/
def transferNodesFromList (s : BlockOrderState) (b source : BlockId) (op : OpId) :
    BlockOrderState :=
  let s := s.invalidateInstOrder b
  if b = source then s else { s with parent := Function.update s.parent op (some b) }

/-- `ilist::insert(before, op)` on block `b`: the `addNodeToList` hook, then the link. -/
def insert (s : BlockOrderState) (b : BlockId) (before : Option OpId) (op : OpId) :
    Option BlockOrderState :=
  if validPosition (s.blocks b).operations before then
    (s.addNodeToList b op).map fun s => s.setOperations b (insertBefore (s.blocks b).operations op before)
  else none

/-- `ilist::remove(op)` on the operation's block: the `removeNodeFromList` hook, then the
unlink. -/
def remove (s : BlockOrderState) (op : OpId) : Option BlockOrderState :=
  match s.parent op with
  | some b => (s.removeNodeFromList op).map fun s => s.setOperations b ((s.blocks b).operations.erase op)
  | none => none

/-- `Operation::moveBefore(block, iterator)`, an `ilist::splice`: nothing before itself or its
successor; otherwise the transfer hook runs, then the operation is relinked before `before`. -/
def moveBefore (s : BlockOrderState) (op : OpId) (b : BlockId) (before : Option OpId) :
    Option BlockOrderState :=
  match s.parent op with
  | none => none
  | some source =>
    if !validPosition (s.blocks b).operations before then none
    else if source = b ∧ (before = some op ∨ before = nextOf (s.blocks source).operations op) then
      some s
    else
      let s := s.transferNodesFromList b source op
      let s := s.setOperations source ((s.blocks source).operations.erase op)
      some (s.setOperations b (insertBefore (s.blocks b).operations op before))

/-- `Operation::isBeforeInBlock`: both operations must be in one block, whose order is
recomputed if it is not valid; then the order indices are compared. -/
def isBeforeInBlock (s : BlockOrderState) (op other : OpId) : Option (Bool × BlockOrderState) :=
  match s.parent op with
  | none => none
  | some b =>
    if s.parent other = some b then
      let s := if (s.blocks b).orderValid then s else s.recomputeInstOrder b
      some (decide (s.orderIndex op < s.orderIndex other), s)
    else none

end BlockOrderState

/-- What can happen to the operations of a function's blocks. -/
inductive BlockAction where
  | insert (b : BlockId) (before : Option OpId) (op : OpId)
  | remove (op : OpId)
  | moveBefore (op : OpId) (b : BlockId) (before : Option OpId)
  | isBeforeInBlock (op other : OpId)

namespace BlockOrderState

/-- One action; `none` where the source asserts. -/
def step (s : BlockOrderState) : BlockAction → Option BlockOrderState
  | .insert b before op => s.insert b before op
  | .remove op => s.remove op
  | .moveBefore op b before => s.moveBefore op b before
  | .isBeforeInBlock op other => (s.isBeforeInBlock op other).map Prod.snd

/-- The states some sequence of actions leads to from `init`. -/
inductive Reachable : BlockOrderState → Prop
  | init : Reachable init
  | step {s s' : BlockOrderState} {a : BlockAction} : Reachable s → s.step a = some s' → Reachable s'

/-! ## The hooks' effect on the state -/

variable {s s' : BlockOrderState} {b c : BlockId} {op other : OpId} {before : Option OpId}

@[simp]
theorem setBlock_blocks (block : Block) : (s.setBlock b block).blocks = Function.update s.blocks b block := rfl

@[simp]
theorem setBlock_parent (block : Block) : (s.setBlock b block).parent = s.parent := rfl

@[simp]
theorem setBlock_orderIndex (block : Block) : (s.setBlock b block).orderIndex = s.orderIndex := rfl

@[simp]
theorem invalidateInstOrder_blocks :
    (s.invalidateInstOrder b).blocks = Function.update s.blocks b { s.blocks b with orderValid := false } :=
  rfl

@[simp]
theorem invalidateInstOrder_parent : (s.invalidateInstOrder b).parent = s.parent := rfl

@[simp]
theorem invalidateInstOrder_orderIndex : (s.invalidateInstOrder b).orderIndex = s.orderIndex := rfl

@[simp]
theorem transferNodesFromList_blocks (source : BlockId) :
    (s.transferNodesFromList b source op).blocks = (s.invalidateInstOrder b).blocks := by
  unfold transferNodesFromList; split <;> rfl

/-- Only a move between blocks sets the operation's block. -/
@[simp]
theorem transferNodesFromList_parent (source : BlockId) :
    (s.transferNodesFromList b source op).parent =
      if b = source then s.parent else Function.update s.parent op (some b) := by
  unfold transferNodesFromList; split <;> rfl

@[simp]
theorem transferNodesFromList_orderIndex (source : BlockId) :
    (s.transferNodesFromList b source op).orderIndex = s.orderIndex := by
  unfold transferNodesFromList; split <;> rfl

@[simp]
theorem recomputeInstOrder_blocks :
    (s.recomputeInstOrder b).blocks = Function.update s.blocks b { s.blocks b with orderValid := true } :=
  rfl

@[simp]
theorem recomputeInstOrder_parent : (s.recomputeInstOrder b).parent = s.parent := rfl

@[simp]
theorem recomputeInstOrder_orderIndex :
    (s.recomputeInstOrder b).orderIndex = numberFrom s.orderIndex 0 (s.blocks b).operations := rfl

/-- An insertion needs the operation to have no block, and links it into `b`, whose order it
invalidates. -/
theorem insert_eq_some (h : s.insert b before op = some s') :
    s.parent op = none ∧ validPosition (s.blocks b).operations before = true ∧
      s' = ⟨Function.update s.blocks b ⟨insertBefore (s.blocks b).operations op before, false⟩,
        Function.update s.parent op (some b), s.orderIndex⟩ := by
  simp only [insert, addNodeToList] at h
  split_ifs at h with hpos hnone <;>
    simp only [Option.map_some', Option.map_none', Option.some.injEq, reduceCtorEq] at h
  subst h
  exact ⟨hnone, hpos, by simp [setOperations, invalidateInstOrder, setBlock]⟩

/-- A removal needs the operation to have a block, and unlinks it from that block without
touching its order flag. -/
theorem remove_eq_some (h : s.remove op = some s') :
    ∃ b, s.parent op = some b ∧
      s' = ⟨Function.update s.blocks b
          { s.blocks b with operations := (s.blocks b).operations.erase op },
        Function.update s.parent op none, s.orderIndex⟩ := by
  simp only [remove, removeNodeFromList] at h
  split at h
  next b hb =>
    simp only [hb, Option.isSome_some, if_true, Option.map_some', Option.some.injEq] at h
    exact ⟨b, hb, h ▸ rfl⟩
  next => cases h

/-- A move that changes the state is a removal then an insertion: removal leaves the order flags
and both invalidate the destination. -/
theorem moveBefore_eq_some (h : s.moveBefore op b before = some s') :
    s' = s ∨ (s.remove op).bind (fun s => s.insert b before op) = some s' := by
  simp only [moveBefore] at h
  split at h
  next => cases h
  next source hsource =>
    split_ifs at h with hpos hsame
    · exact .inl (Option.some.inj h).symm
    · refine .inr ?_
      have hpos' : validPosition (Function.update s.blocks source
          { s.blocks source with operations := (s.blocks source).operations.erase op } b).operations
          before = true := by
        by_cases hb : b = source
        · subst hb
          cases before with
          | none => rfl
          | some w =>
            have hw : w ≠ op := fun hw => hsame ⟨rfl, .inl (hw ▸ rfl)⟩
            simpa [validPosition, List.mem_erase_of_ne hw] using hpos
        · simpa [Function.update_noteq hb] using hpos
      simp only [not_not] at hpos
      simp only [remove, removeNodeFromList, hsource, Option.isSome_some, if_true, Option.map_some',
        Option.some_bind, insert, addNodeToList, setOperations, setBlock_blocks, hpos',
        Function.update_same, setBlock_parent, if_true, Option.map_some', Option.some.injEq] at h ⊢
      subst h
      refine BlockOrderState.ext (funext fun c => ?_) ?_ (by simp)
      · obtain rfl | hb := eq_or_ne b source
        · by_cases hc : c = b <;> simp [Function.update_apply, hc]
        · by_cases hc : c = b
          · subst hc; simp [hb]
          · by_cases hc' : c = source <;> simp [Function.update_apply, hc, hc', hb.symm]
      · by_cases hb : b = source <;> simp [hb, hsource]

/-- A query leaves the state as it was, or with the block's order recomputed. -/
theorem isBeforeInBlock_eq_some {r : Bool} (h : s.isBeforeInBlock op other = some (r, s')) :
    s' = s ∨ ∃ b, s' = s.recomputeInstOrder b := by
  simp only [isBeforeInBlock] at h
  split at h
  next => cases h
  next b _ =>
    split_ifs at h with hother hv <;> simp only [Option.some.injEq, Prod.mk.injEq] at h
    exacts [.inl h.2.symm, .inr ⟨b, h.2.symm⟩]

end BlockOrderState

/-! ## Lists, positions and order indices -/

/-- Linking an operation in permutes it onto the front. -/
theorem insertBefore_perm (l : List OpId) (op : OpId) (before : Option OpId) :
    (insertBefore l op before).Perm (op :: l) := by
  cases before with
  | none => exact List.perm_append_singleton op l
  | some w => exact List.perm_middle.trans (by rw [List.take_append_drop])

@[simp]
theorem mem_insertBefore {l : List OpId} {op x : OpId} {before : Option OpId} :
    x ∈ insertBefore l op before ↔ x = op ∨ x ∈ l :=
  (insertBefore_perm l op before).mem_iff.trans List.mem_cons

/-- Operations outside the numbered list keep their index. -/
theorem numberFrom_of_not_mem {x : OpId} :
    ∀ {f : OpId → Nat} {i : Nat} {l : List OpId}, x ∉ l → numberFrom f i l x = f x
  | _, _, [], _ => rfl
  | _, _, _ :: _, hx => by
    rw [numberFrom, numberFrom_of_not_mem (List.not_mem_of_not_mem_cons hx),
      Function.update_noteq (List.ne_of_not_mem_cons hx)]

/-- On a list without repeats the loop numbers the operations `i, i + 1, ...` in list order. -/
theorem map_numberFrom :
    ∀ {f : OpId → Nat} {i : Nat} {l : List OpId}, l.Nodup → l.map (numberFrom f i l) = List.range' i l.length
  | _, _, [], _ => rfl
  | _, _, _ :: _, hl => by
    rw [List.nodup_cons] at hl
    rw [List.map_cons, numberFrom, numberFrom_of_not_mem hl.1, Function.update_same, map_numberFrom hl.2,
      List.length_cons, List.range'_succ]

/-- Along a list without repeats whose indices increase, one operation's index is below
another's exactly when it comes first. -/
theorem lt_iff_sublist {f : OpId → Nat} :
    ∀ {l : List OpId}, l.Nodup → (l.map f).Pairwise (· < ·) →
      ∀ {a c : OpId}, a ∈ l → c ∈ l → (f a < f c ↔ [a, c].Sublist l)
  | [], _, _, _, _, ha, _ => absurd ha (List.not_mem_nil _)
  | x :: l, hn, hp, a, c, ha, hc => by
    rw [List.nodup_cons] at hn
    rw [List.map_cons, List.pairwise_cons] at hp
    have hx : ∀ y ∈ l, f x < f y := fun y hy => hp.1 _ (List.mem_map_of_mem f hy)
    have hsub : [a, c].Sublist (x :: l) ↔ [a, c].Sublist l ∨ (a = x ∧ c ∈ l) := by
      simp [List.sublist_cons_iff, and_assoc]
    have hlast : ∀ y, ¬[y, x].Sublist l := fun y h => hn.1 (h.subset (by simp))
    rw [List.mem_cons] at ha hc
    rcases ha with rfl | ha <;> rcases hc with rfl | hc
    · simp [hsub, hn.1, hlast]
    · simp [hsub, hx c hc, hc]
    · simp [hsub, hlast, (hx a ha).not_lt, ne_of_mem_of_not_mem ha hn.1]
    · rw [lt_iff_sublist hn.2 hp.2 ha hc, hsub]
      simp [ne_of_mem_of_not_mem ha hn.1]

/-! ## The invariant of every reachable state -/

namespace BlockOrderState

variable {s s' : BlockOrderState} {b : BlockId} {op other : OpId} {before : Option OpId}

/-- What every reachable state keeps: block fields name the block whose list holds the operation,
no list repeats one, and a valid block's indices increase along its list. -/
structure Consistent (s : BlockOrderState) : Prop where
  parent_eq_some_iff : ∀ b op, s.parent op = some b ↔ op ∈ (s.blocks b).operations
  nodup : ∀ b, (s.blocks b).operations.Nodup
  ordered : ∀ b, (s.blocks b).orderValid = true →
    ((s.blocks b).operations.map s.orderIndex).Pairwise (· < ·)

theorem init_consistent : init.Consistent :=
  ⟨fun _ _ => by simp [init, Block.empty], fun _ => List.nodup_nil, fun _ _ => List.Pairwise.nil⟩

/-- Two blocks share no operation. -/
theorem Consistent.eq_of_mem (hs : s.Consistent) {c : BlockId} (hb : op ∈ (s.blocks b).operations)
    (hc : op ∈ (s.blocks c).operations) : b = c :=
  Option.some.inj (((hs.parent_eq_some_iff b op).2 hb).symm.trans ((hs.parent_eq_some_iff c op).2 hc))

/-- Inserting an operation keeps the invariant: it was in no list, and the block it joins is
invalidated. -/
theorem Consistent.insert (hs : s.Consistent) (h : s.insert b before op = some s') : s'.Consistent := by
  obtain ⟨hnone, -, rfl⟩ := insert_eq_some h
  have hop : ∀ c, op ∉ (s.blocks c).operations := fun c hc => by
    simp [(hs.parent_eq_some_iff c op).2 hc] at hnone
  refine ⟨fun c x => ?_, fun c => ?_, fun c => ?_⟩ <;> obtain rfl | hc := eq_or_ne c b
  · obtain rfl | hx := eq_or_ne x op
    · simp
    · simp [hx, hs.parent_eq_some_iff]
  · obtain rfl | hx := eq_or_ne x op
    · simp [hc, hc.symm, hop]
    · simp [hc, hx, hs.parent_eq_some_iff]
  · simpa [(insertBefore_perm _ _ _).nodup_iff, hop] using hs.nodup c
  · simpa [hc] using hs.nodup c
  · simp
  · simpa [hc] using hs.ordered c

/-- Removing an operation keeps the invariant: a list without it is still free of repeats and
its indices still increase. -/
theorem Consistent.remove (hs : s.Consistent) (h : s.remove op = some s') : s'.Consistent := by
  obtain ⟨b, hb, rfl⟩ := remove_eq_some h
  have hin := (hs.parent_eq_some_iff b op).1 hb
  refine ⟨fun c x => ?_, fun c => ?_, fun c => ?_⟩ <;> obtain rfl | hc := eq_or_ne c b
  · obtain rfl | hx := eq_or_ne x op
    · simp [(hs.nodup c).not_mem_erase]
    · simp [hx, List.mem_erase_of_ne hx, hs.parent_eq_some_iff]
  · obtain rfl | hx := eq_or_ne x op
    · have hx : x ∉ (s.blocks c).operations := fun h => hc (hs.eq_of_mem h hin)
      simp [hc, hx]
    · simp [hc, hx, hs.parent_eq_some_iff]
  · simpa using (hs.nodup c).erase op
  · simpa [hc] using hs.nodup c
  · simpa using fun hv => (hs.ordered c hv).sublist ((List.erase_sublist op _).map _)
  · simpa [hc] using hs.ordered c

/-- Recomputing a block's order keeps the invariant: the block is numbered in list order, and
the operations of other blocks are not in its list, so keep their indices. -/
theorem Consistent.recomputeInstOrder (hs : s.Consistent) (b : BlockId) :
    (s.recomputeInstOrder b).Consistent := by
  refine ⟨fun c x => ?_, fun c => ?_, fun c => ?_⟩ <;> by_cases hc : c = b
  · subst hc; simp [hs.parent_eq_some_iff]
  · simp [Function.update_noteq hc, hs.parent_eq_some_iff]
  · subst hc; simpa using hs.nodup c
  · simpa [Function.update_noteq hc] using hs.nodup c
  · subst hc
    simpa [map_numberFrom (hs.nodup c)] using List.pairwise_lt_range' 0 _
  · intro hv
    have hkeep : ∀ x ∈ (s.blocks c).operations,
        numberFrom s.orderIndex 0 (s.blocks b).operations x = s.orderIndex x :=
      fun x hx => numberFrom_of_not_mem fun hxb => hc (hs.eq_of_mem hx hxb)
    simp only [recomputeInstOrder_blocks, Function.update_noteq hc, recomputeInstOrder_orderIndex] at hv ⊢
    rw [List.map_congr_left hkeep]
    exact hs.ordered c hv

/-- A query keeps the invariant. -/
theorem Consistent.isBeforeInBlock {r : Bool} (hs : s.Consistent)
    (h : s.isBeforeInBlock op other = some (r, s')) : s'.Consistent := by
  obtain rfl | ⟨b, rfl⟩ := isBeforeInBlock_eq_some h
  exacts [hs, hs.recomputeInstOrder b]

/-- A move keeps the invariant, as the removal and insertion it amounts to do. -/
theorem Consistent.moveBefore {b : BlockId} (hs : s.Consistent) (h : s.moveBefore op b before = some s') :
    s'.Consistent := by
  obtain rfl | h := moveBefore_eq_some h
  · exact hs
  · obtain ⟨s₁, h₁, h₂⟩ := Option.bind_eq_some.1 h
    exact (hs.remove h₁).insert h₂

/-- Every action keeps the invariant. -/
theorem Consistent.step (hs : s.Consistent) {a : BlockAction} (h : s.step a = some s') : s'.Consistent := by
  cases a with
  | insert b before op => exact hs.insert h
  | remove op => exact hs.remove h
  | moveBefore op b before => exact hs.moveBefore h
  | isBeforeInBlock op other =>
    obtain ⟨⟨r, s₁⟩, h₁, rfl⟩ := Option.map_eq_some'.1 h
    exact hs.isBeforeInBlock h₁

/-- Every reachable state keeps the invariant. -/
theorem Reachable.consistent (hs : s.Reachable) : s.Consistent := by
  induction hs with
  | init => exact init_consistent
  | step _ h ih => exact ih.step h

/-- On a consistent state, a query about two operations of one block answers whether the first
comes before the second in the block's list. -/
theorem Consistent.isBeforeInBlock_eq (hs : s.Consistent) (hop : op ∈ (s.blocks b).operations)
    (hother : other ∈ (s.blocks b).operations) :
    ∃ s', s.isBeforeInBlock op other = some (decide ([op, other].Sublist (s.blocks b).operations), s') := by
  let s₁ := if (s.blocks b).orderValid then s else s.recomputeInstOrder b
  have h₁ : s₁.Consistent ∧ (s₁.blocks b).orderValid ∧ (s₁.blocks b).operations = (s.blocks b).operations := by
    by_cases hv : (s.blocks b).orderValid <;> simp [s₁, hv, hs, hs.recomputeInstOrder b]
  refine ⟨s₁, ?_⟩
  have hlt := lt_iff_sublist (h₁.1.nodup b) (h₁.1.ordered b h₁.2.1) (h₁.2.2 ▸ hop) (h₁.2.2 ▸ hother)
  simp only [BlockOrderState.isBeforeInBlock, (hs.parent_eq_some_iff b op).2 hop, (hs.parent_eq_some_iff b other).2 hother,
    if_true]
  rw [← h₁.2.2, ← decide_eq_decide.2 hlt]

/-- `isBeforeInBlock` matches list order in every reachable state: a valid block's indices
increase, and a query on one block's operations answers whether the first comes first. -/
theorem isBeforeInBlock_matches_list_order (hs : s.Reachable) :
    (∀ b, (s.blocks b).orderValid = true →
      ((s.blocks b).operations.map s.orderIndex).Pairwise (· < ·)) ∧
    ∀ b op other, op ∈ (s.blocks b).operations → other ∈ (s.blocks b).operations →
      ∃ s', s.isBeforeInBlock op other = some (decide ([op, other].Sublist (s.blocks b).operations), s') :=
  ⟨hs.consistent.ordered, fun _ _ _ hop hother => hs.consistent.isBeforeInBlock_eq hop hother⟩

/-- Operations 1 and 2 inserted at the end of block 0, in that order. -/
def twoOps : BlockOrderState :=
  ((init.insert 0 none 1).bind fun s => s.insert 0 none 2).getD init

theorem isBeforeInBlock_matches_list_order_twoOps :
    twoOps.Reachable ∧
    (∀ b, (twoOps.blocks b).orderValid = true →
      ((twoOps.blocks b).operations.map twoOps.orderIndex).Pairwise (· < ·)) ∧
    ∀ b op other, op ∈ (twoOps.blocks b).operations → other ∈ (twoOps.blocks b).operations →
      ∃ s', twoOps.isBeforeInBlock op other =
        some (decide ([op, other].Sublist (twoOps.blocks b).operations), s') :=
  have h : twoOps.Reachable :=
    @Reachable.step _ _ (.insert 0 none 2) (@Reachable.step _ _ (.insert 0 none 1) .init rfl) rfl
  ⟨h, isBeforeInBlock_matches_list_order h⟩

example : (twoOps.isBeforeInBlock 2 1).map Prod.fst = some false := by decide

/-- In every reachable state an operation's block field names the block whose list holds it, no
list repeats it, and so no operation is in two blocks' lists. -/
theorem Reachable.operations_in_one_block (hs : s.Reachable) :
    (∀ b op, s.parent op = some b ↔ op ∈ (s.blocks b).operations) ∧
      (∀ b, (s.blocks b).operations.Nodup) ∧
      ∀ b c op, op ∈ (s.blocks b).operations → op ∈ (s.blocks c).operations → b = c :=
  ⟨hs.consistent.parent_eq_some_iff, hs.consistent.nodup,
    fun _ _ _ hb hc => hs.consistent.eq_of_mem hb hc⟩

/-- `twoOps` after operation 1 moves to the end of block 1. -/
def movedToOtherBlock : BlockOrderState := (twoOps.moveBefore 1 1 none).getD init

/-- After the move, operation 1 is in block 1's list alone. -/
theorem Reachable.operations_in_one_block_movedToOtherBlock :
    movedToOtherBlock.Reachable ∧
      (∀ b op, movedToOtherBlock.parent op = some b ↔
        op ∈ (movedToOtherBlock.blocks b).operations) ∧
      (∀ b, (movedToOtherBlock.blocks b).operations.Nodup) ∧
      ∀ b c op, op ∈ (movedToOtherBlock.blocks b).operations →
        op ∈ (movedToOtherBlock.blocks c).operations → b = c :=
  have h : movedToOtherBlock.Reachable := @Reachable.step _ _ (.moveBefore 1 1 none)
    (@Reachable.step _ _ (.insert 0 none 2) (@Reachable.step _ _ (.insert 0 none 1) .init rfl) rfl)
    rfl
  ⟨h, h.operations_in_one_block⟩

end BlockOrderState

end Mlir
