import MlirCore.Affine.Canonicalize

/-!
# The `affine.apply` normalizer

`AffineApplyNormalizer` composes an `affine.apply`'s map with the maps of the `affine.apply`s that
define its operands. It first rewrites `affine.apply` symbols as trailing dims
(`promoteComposedSymbolsAsDims`), then composes, renumbers as dims or concatenates as symbols each
operand in order, renumbering nested operands into its own coordinates (`renumber`). The global
`affineApplyDepth` counter becomes an explicit budget of further levels, and the constructor
returns `none` where the source dereferences a null expression or reads a missing result.
-/

namespace Mlir

/-- `kMaxAffineApplyDepth`. -/
def kMaxAffineApplyDepth : Nat := 1

/-- The fields of an `AffineApplyNormalizer`. `renumberOneDim` is the only place a dim is
added, to `dimValueToPosition` and `reorderedDims` together, so their keys always agree. -/
structure AffineApplyNormalizer where
  dimValueToPosition : List (Value × Nat)
  reorderedDims : List Value
  concatenatedSymbols : List Value
  affineMap : AffineMap
  keys : dimValueToPosition.map Prod.fst = reorderedDims
  deriving Repr, DecidableEq

namespace AffineApplyNormalizer

/-- The fields before the constructor's loop; `affineMap` is still null, modelled as the
empty map. -/
def empty : AffineApplyNormalizer := ⟨[], [], [], ⟨0, 0, []⟩, rfl⟩

/-- `getOperands`: the reordered dims followed by the concatenated symbols. -/
def getOperands (n : AffineApplyNormalizer) : List Value :=
  n.reorderedDims ++ n.concatenatedSymbols

/-- `renumberOneDim`: the dim expression at `v`'s position, `v` being appended if new. -/
def renumberOneDim (n : AffineApplyNormalizer) (v : Value) : AffineExpr × AffineApplyNormalizer :=
  match n.dimValueToPosition.lookup v with
  | some position => (.dim position, n)
  | none =>
    (.dim n.dimValueToPosition.length,
      { n with dimValueToPosition := n.dimValueToPosition ++ [(v, n.dimValueToPosition.length)]
               reorderedDims := n.reorderedDims ++ [v]
               keys := by rw [List.map_append, n.keys]; rfl })

/-- `dimRemapping[position] = e`, after `resize(position + 1)` when the list is too short. -/
def setRemapping (remapping : List (Option AffineExpr)) (position : Nat) (e : AffineExpr) :
    List (Option AffineExpr) :=
  (remapping ++ List.replicate (position + 1 - remapping.length) none).set position (some e)

/-- `renumber`'s loop over `other.reorderedDims`. -/
def renumberDims (other : AffineApplyNormalizer) :
    List Value → List (Option AffineExpr) × AffineApplyNormalizer →
      Option (List (Option AffineExpr) × AffineApplyNormalizer)
  | [], acc => some acc
  | v :: rest, (dimRemapping, n) => do
    let position ← other.dimValueToPosition.lookup v
    let (e, n) := n.renumberOneDim v
    renumberDims other rest (setRemapping dimRemapping position e, n)

/-- `renumber`: rewrite `other.affineMap` in this normalizer's coordinates, appending
`other`'s new dims and all its symbols. -/
def renumber (n other : AffineApplyNormalizer) : Option (AffineMap × AffineApplyNormalizer) := do
  let (dimRemapping, n) ← renumberDims other other.reorderedDims ([], n)
  let numSymbols := n.concatenatedSymbols.length
  let numOtherSymbols := other.concatenatedSymbols.length
  let symRemapping := (List.range numOtherSymbols).map fun idx =>
    some (AffineExpr.symbol (idx + numSymbols))
  let n := { n with concatenatedSymbols := n.concatenatedSymbols ++ other.concatenatedSymbols }
  let map ← other.affineMap.replaceDimsAndSymbols dimRemapping symRemapping dimRemapping.length
    symRemapping.length
  pure (map, n)

@[simp] theorem empty_reorderedDims : empty.reorderedDims = [] := rfl

@[simp] theorem empty_concatenatedSymbols : empty.concatenatedSymbols = [] := rfl

/-- There is one position per reordered dim. -/
theorem dimValueToPosition_length (n : AffineApplyNormalizer) :
    n.dimValueToPosition.length = n.reorderedDims.length := by
  rw [← n.keys, List.length_map]

/-- `renumberOneDim` adds at most its value to the dims and leaves the symbols alone. -/
theorem renumberOneDim_spec (n : AffineApplyNormalizer) (v : Value) :
    (∀ w ∈ (n.renumberOneDim v).2.reorderedDims, w ∈ n.reorderedDims ∨ w = v) ∧
      (n.renumberOneDim v).2.concatenatedSymbols = n.concatenatedSymbols := by
  unfold renumberOneDim
  split
  · exact ⟨fun w hw => .inl hw, rfl⟩
  · exact ⟨fun w hw => by simpa using hw, rfl⟩

/-- `renumber`'s loop adds dims from its list and leaves the symbols alone. -/
theorem renumberDims_spec (other : AffineApplyNormalizer) (l : List Value) :
    ∀ (r : List (Option AffineExpr)) (n : AffineApplyNormalizer) {r' n'},
      renumberDims other l (r, n) = some (r', n') →
      (∀ w ∈ n'.reorderedDims, w ∈ n.reorderedDims ∨ w ∈ l) ∧
        n'.concatenatedSymbols = n.concatenatedSymbols := by
  induction l with
  | nil =>
    intro r n r' n' h
    cases h
    exact ⟨fun w hw => .inl hw, rfl⟩
  | cons v rest ih =>
    intro r n r' n' h
    simp only [renumberDims, Option.bind_eq_bind, Option.bind_eq_some] at h
    obtain ⟨position, -, h⟩ := h
    obtain ⟨hd₁, hs₁⟩ := renumberOneDim_spec n v
    obtain ⟨hd, hs⟩ := ih _ _ h
    refine ⟨fun w hw => ?_, hs.trans hs₁⟩
    rcases hd w hw with hw | hw
    · rcases hd₁ w hw with hw | rfl
      · exact .inl hw
      · exact .inr (List.mem_cons_self _ _)
    · exact .inr (List.mem_cons_of_mem _ hw)

/-- `renumber` adds dims of `other` and appends all of `other`'s symbols. -/
theorem renumber_spec {n other n' : AffineApplyNormalizer} {map : AffineMap}
    (h : n.renumber other = some (map, n')) :
    (∀ w ∈ n'.reorderedDims, w ∈ n.reorderedDims ∨ w ∈ other.reorderedDims) ∧
      n'.concatenatedSymbols = n.concatenatedSymbols ++ other.concatenatedSymbols := by
  simp only [renumber, Option.bind_eq_bind, Option.bind_eq_some] at h
  obtain ⟨⟨r, n₁⟩, h₁, m, -, h⟩ := h
  cases h
  obtain ⟨hd, hs⟩ := renumberDims_spec other _ _ _ h₁
  exact ⟨hd, by rw [hs]⟩

end AffineApplyNormalizer

/-- `indicesFromAffineApplyOp`: the positions, from `i` on, of the operands an `affine.apply`
defines. -/
def indicesFromAffineApplyOp (ir : IR) : Nat → List Value → List Nat
  | _, [] => []
  | i, v :: rest =>
    if (ir.affineApplyOf v).isSome then i :: indicesFromAffineApplyOp ir (i + 1) rest
    else indicesFromAffineApplyOp ir (i + 1) rest

/-- `promoteComposedSymbolsAsDims`' loop: symbol `i` becomes the next new dim if it is in
`symPositions`, and the next remaining symbol otherwise. -/
def symReplacementsLoop (numDims : Nat) (symPositions : List Nat) :
    List Nat → List (Option AffineExpr) × Nat × Nat → List (Option AffineExpr) × Nat × Nat
  | [], acc => acc
  | i :: rest, (symReplacements, numNewDims, numNewSymbols) =>
    if symPositions.contains i then
      symReplacementsLoop numDims symPositions rest
        (symReplacements ++ [some (.dim (numDims + numNewDims))], numNewDims + 1, numNewSymbols)
    else
      symReplacementsLoop numDims symPositions rest
        (symReplacements ++ [some (.symbol numNewSymbols)], numNewDims, numNewSymbols + 1)

/-- `promoteComposedSymbolsAsDims`: symbols defined by an `affine.apply` are rewritten as dims
placed after the original dims, in order. -/
def promoteComposedSymbolsAsDims (ir : IR) (map : AffineMap) (symbols : List Value) :
    Option AffineMap :=
  if symbols.isEmpty then some map
  else
    let symPositions := indicesFromAffineApplyOp ir 0 symbols
    if symPositions.isEmpty then some map
    else
      let (symReplacements, numNewDims, numNewSymbols) :=
        symReplacementsLoop map.numDims symPositions (List.range map.numSymbols) ([], 0, 0)
      map.replaceDimsAndSymbols [] symReplacements (map.numDims + numNewDims) numNewSymbols

/-- Listed positions start at `i`. -/
theorem le_of_mem_indicesFromAffineApplyOp {ir : IR} :
    ∀ {i : Nat} {l : List Value} {k : Nat}, k ∈ indicesFromAffineApplyOp ir i l → i ≤ k
  | _, [], _, h => by cases h
  | i, t :: rest, k, h => by
    unfold indicesFromAffineApplyOp at h
    split at h
    · rcases List.mem_cons.mp h with rfl | h
      · exact Nat.le_refl _
      · exact Nat.le_of_succ_le (le_of_mem_indicesFromAffineApplyOp h)
    · exact Nat.le_of_succ_le (le_of_mem_indicesFromAffineApplyOp h)

/-- No position is listed exactly when no operand is an `affine.apply` result. -/
theorem indicesFromAffineApplyOp_eq_nil {ir : IR} :
    ∀ {i : Nat} {l : List Value}, indicesFromAffineApplyOp ir i l = [] ↔ ∀ t ∈ l, ir.affineApplyOf t = none
  | _, [] => by simp [indicesFromAffineApplyOp]
  | i, t :: rest => by
    unfold indicesFromAffineApplyOp
    split <;> simp_all [indicesFromAffineApplyOp_eq_nil, Option.isSome_iff_ne_none]

/-- Counting the listed positions over the positions they come from counts the `affine.apply`
results. -/
theorem countP_range'_indicesFromAffineApplyOp (ir : IR) :
    ∀ (i : Nat) (l : List Value),
      (List.range' i l.length).countP (fun k => (indicesFromAffineApplyOp ir i l).contains k) =
        l.countP fun t => (ir.affineApplyOf t).isSome
  | _, [] => rfl
  | i, t :: rest => by
    have hrest : (List.range' (i + 1) rest.length).countP
        (fun k => (indicesFromAffineApplyOp ir i (t :: rest)).contains k) =
          rest.countP fun t => (ir.affineApplyOf t).isSome := by
      rw [← countP_range'_indicesFromAffineApplyOp ir (i + 1) rest]
      refine List.countP_congr fun k hk => ?_
      have hik : k ≠ i := by have := (List.mem_range'_1.mp hk).1; omega
      simp only [indicesFromAffineApplyOp]
      split <;> simp [hik]
    have hhead : (indicesFromAffineApplyOp ir i (t :: rest)).contains i =
        (ir.affineApplyOf t).isSome := by
      unfold indicesFromAffineApplyOp
      split
      · simp_all
      · rename_i h
        simp only [h, List.elem_eq_mem, decide_eq_false_iff_not]
        exact fun hi => absurd (le_of_mem_indicesFromAffineApplyOp hi) (by omega)
    rw [List.length_cons, List.range'_succ, List.countP_cons, List.countP_cons, hrest, hhead]

/-- `promoteComposedSymbolsAsDims`' loop sets every entry, and counts the listed positions as
new dims and the others as remaining symbols. -/
theorem symReplacementsLoop_spec (numDims : Nat) (symPositions : List Nat) :
    ∀ (l : List Nat) (acc : List (Option AffineExpr) × Nat × Nat), (∀ x ∈ acc.1, x ≠ none) →
      (∀ x ∈ (symReplacementsLoop numDims symPositions l acc).1, x ≠ none) ∧
      (symReplacementsLoop numDims symPositions l acc).2.1 =
        acc.2.1 + l.countP (symPositions.contains ·) ∧
      (symReplacementsLoop numDims symPositions l acc).2.2 =
        acc.2.2 + l.countP (fun i => !symPositions.contains i)
  | [], acc, h => ⟨h, rfl, rfl⟩
  | i :: rest, (symReplacements, numNewDims, numNewSymbols), h => by
    unfold symReplacementsLoop
    split
    · obtain ⟨h₁, h₂, h₃⟩ := symReplacementsLoop_spec numDims symPositions rest
        (symReplacements ++ [some (.dim (numDims + numNewDims))], numNewDims + 1, numNewSymbols)
        (List.forall_mem_append.mpr ⟨h, by simp⟩)
      rename_i hi
      dsimp only at h₂ h₃ ⊢
      refine ⟨h₁, ?_, ?_⟩
      · rw [h₂, List.countP_cons, if_pos hi]
        omega
      · rw [h₃, List.countP_cons, if_neg (by simpa using hi)]
        rfl
    · obtain ⟨h₁, h₂, h₃⟩ := symReplacementsLoop_spec numDims symPositions rest
        (symReplacements ++ [some (.symbol numNewSymbols)], numNewDims, numNewSymbols + 1)
        (List.forall_mem_append.mpr ⟨h, by simp⟩)
      rename_i hi
      dsimp only at h₂ h₃ ⊢
      refine ⟨h₁, ?_, ?_⟩
      · rw [h₂, List.countP_cons, if_neg hi]
        rfl
      · rw [h₃, List.countP_cons, if_pos (by simpa using hi)]
        omega

/-- A list splits into the elements that satisfy a test and those that do not. -/
private theorem countP_add_countP_not {α : Type} (p : α → Bool) (l : List α) :
    l.countP p + l.countP (fun a => !p a) = l.length := by
  induction l with
  | nil => rfl
  | cons a l ih => cases h : p a <;> simp [List.countP_cons, h] <;> omega

/-- Operands split into `affine.apply` results and the others. -/
theorem countP_isSome_add_countP_isNone (ir : IR) (l : List Value) :
    l.countP (fun t => (ir.affineApplyOf t).isSome) + l.countP (fun t => (ir.affineApplyOf t).isNone) =
      l.length := by
  simpa using countP_add_countP_not (fun t => (ir.affineApplyOf t).isSome) l

/-- Promotion succeeds on as many symbols as the map has: each `affine.apply` symbol becomes a
new dim, the others stay symbols. -/
theorem promoteComposedSymbolsAsDims_spec (ir : IR) (map : AffineMap) (symbols : List Value)
    (h : symbols.length = map.numSymbols) :
    ∃ promoted, promoteComposedSymbolsAsDims ir map symbols = some promoted ∧
      promoted.numDims = map.numDims + symbols.countP (fun t => (ir.affineApplyOf t).isSome) ∧
      promoted.numSymbols = symbols.countP (fun t => (ir.affineApplyOf t).isNone) ∧
      promoted.results.length = map.results.length := by
  have hsplit := countP_isSome_add_countP_isNone ir symbols
  unfold promoteComposedSymbolsAsDims
  split
  · rename_i hempty
    have : symbols = [] := List.isEmpty_iff.mp hempty
    subst this
    exact ⟨map, rfl, by simp, by simpa using h.symm, rfl⟩
  dsimp only
  split
  · rename_i _ hnone
    have hall := indicesFromAffineApplyOp_eq_nil.mp (List.isEmpty_iff.mp hnone)
    refine ⟨map, rfl, by simpa [List.countP_eq_zero] using hall, ?_, rfl⟩
    rw [List.countP_eq_length.mpr (by simpa using hall), h]
  · rcases hloop : symReplacementsLoop map.numDims (indicesFromAffineApplyOp ir 0 symbols)
      (List.range map.numSymbols) ([], 0, 0) with ⟨symReplacements, numNewDims, numNewSymbols⟩
    obtain ⟨hsome, hdims, hsyms⟩ := symReplacementsLoop_spec map.numDims
      (indicesFromAffineApplyOp ir 0 symbols) (List.range map.numSymbols) ([], 0, 0) (by simp)
    rw [hloop] at hsome hdims hsyms
    have hcount := countP_range'_indicesFromAffineApplyOp ir 0 symbols
    rw [h, ← List.range_eq_range'] at hcount
    have hrange := countP_add_countP_not
      (fun i => (indicesFromAffineApplyOp ir 0 symbols).contains i) (List.range map.numSymbols)
    simp only [List.length_range] at hrange hdims hsyms
    obtain ⟨promoted, hp⟩ := Option.isSome_iff_exists.mp
      (@AffineMap.replaceDimsAndSymbols_isSome map [] symReplacements (map.numDims + numNewDims)
        numNewSymbols (fun _ _ i _ => by simp)
        (fun _ _ j _ => AffineMap.getD_ne_none_of_forall hsome j _))
    obtain ⟨hlen, hnd, hns⟩ := AffineMap.results_length_of_replaceDimsAndSymbols hp
    refine ⟨promoted, hp, by rw [hnd, hdims, hcount]; simp, ?_, hlen⟩
    rw [hns, hsyms]
    omega

/-- With no `affine.apply` symbol, promotion keeps the map. -/
theorem promoteComposedSymbolsAsDims_of_forall {ir : IR} {map : AffineMap} {symbols : List Value}
    (h : ∀ t ∈ symbols, ir.affineApplyOf t = none) :
    promoteComposedSymbolsAsDims ir map symbols = some map := by
  unfold promoteComposedSymbolsAsDims
  split
  · rfl
  · rw [if_pos (List.isEmpty_iff.mpr (indicesFromAffineApplyOp_eq_nil.mpr h))]

/-! ## What promotion means

Promotion keeps the operand order: the rewritten map expects the original dims, then the
`affine.apply` symbols in order, then the other symbols in order. -/

/-- Entry `i` of the promotion's symbol replacements: the next new dim if position `i` is
promoted, the next remaining symbol otherwise, numbered by the positions before `i`. -/
def symReplacement (numDims : Nat) (promoted : Nat → Bool) (i : Nat) : Option AffineExpr :=
  if promoted i then some (.dim (numDims + (List.range i).countP promoted))
  else some (.symbol ((List.range i).countP fun k => !promoted k))

/-- The loop from position `a` on appends one entry per position, given the counts of the
positions before `a`. -/
theorem symReplacementsLoop_range' (numDims : Nat) (symPositions : List Nat) :
    ∀ (m a : Nat) (acc : List (Option AffineExpr)),
      (symReplacementsLoop numDims symPositions (List.range' a m)
          (acc, (List.range a).countP (symPositions.contains ·),
            (List.range a).countP fun k => !symPositions.contains k)).1 =
        acc ++ (List.range' a m).map (symReplacement numDims (symPositions.contains ·))
  | 0, _, _ => by simp [symReplacementsLoop]
  | m + 1, a, acc => by
    have hsucc : ∀ q : Nat → Bool, (List.range (a + 1)).countP q =
        (List.range a).countP q + if q a then 1 else 0 := fun q => by
      rw [List.range_succ, List.countP_append]
      cases h : q a <;> simp [h]
    have ih := symReplacementsLoop_range' numDims symPositions m (a + 1)
    rw [hsucc, hsucc] at ih
    rw [List.range'_succ, symReplacementsLoop]
    split
    · rename_i ha
      simp only [ha, Bool.not_true, Bool.false_eq_true, ↓reduceIte, Nat.add_zero] at ih
      rw [ih, List.map_cons, symReplacement, if_pos ha, List.append_assoc, List.singleton_append]
    · rename_i ha
      simp only [ha, Bool.not_false, Bool.false_eq_true, ↓reduceIte, Nat.add_zero] at ih
      rw [ih, List.map_cons, symReplacement, if_neg ha, List.append_assoc, List.singleton_append]

/-- The promotion's symbol replacements: one entry per symbol. -/
theorem symReplacementsLoop_range (numDims : Nat) (symPositions : List Nat) (n : Nat) :
    (symReplacementsLoop numDims symPositions (List.range n) ([], 0, 0)).1 =
      (List.range n).map (symReplacement numDims (symPositions.contains ·)) := by
  simpa [List.range_eq_range'] using symReplacementsLoop_range' numDims symPositions n 0 []

/-- Position `i + k` is listed exactly when element `k` of the list starting at position `i` is
an `affine.apply` result. -/
theorem contains_indicesFromAffineApplyOp (ir : IR) :
    ∀ (i : Nat) (l : List Value) (k : Nat) (hk : k < l.length),
      (indicesFromAffineApplyOp ir i l).contains (i + k) = (ir.affineApplyOf l[k]).isSome
  | i, t :: rest, 0, _ => by
    unfold indicesFromAffineApplyOp
    split
    · simp_all
    · rename_i h
      simp only [Nat.add_zero, h, List.getElem_cons_zero, List.elem_eq_mem, decide_eq_false_iff_not]
      exact fun hi => absurd (le_of_mem_indicesFromAffineApplyOp hi) (by omega)
  | i, t :: rest, k + 1, hk => by
    have ih := contains_indicesFromAffineApplyOp ir (i + 1) rest k (by simpa using hk)
    rw [Nat.add_assoc, Nat.add_comm 1 k] at ih
    unfold indicesFromAffineApplyOp
    split
    · rw [show (i :: indicesFromAffineApplyOp ir (i + 1) rest).contains (i + (k + 1)) =
        (i + (k + 1) == i || (indicesFromAffineApplyOp ir (i + 1) rest).contains (i + (k + 1))) from rfl,
        ih]
      simp
    · simpa using ih

/-- Counting promoted positions before `j` counts the first `j` symbols by a test on whether an
`affine.apply` defines them. -/
theorem countP_range_indicesFromAffineApplyOp (ir : IR) (l : List Value) (q : Bool → Bool) :
    ∀ j ≤ l.length, (List.range j).countP (fun k => q ((indicesFromAffineApplyOp ir 0 l).contains k)) =
      (l.take j).countP fun t => q (ir.affineApplyOf t).isSome
  | 0, _ => rfl
  | j + 1, hj => by
    have hcontains := contains_indicesFromAffineApplyOp ir 0 l j hj
    rw [Nat.zero_add] at hcontains
    rw [List.range_succ, List.take_succ, List.getElem?_eq_getElem hj, Option.toList_some,
      List.countP_append, List.countP_append, countP_range_indicesFromAffineApplyOp ir l q j (by omega),
      List.countP_singleton, List.countP_singleton, hcontains]

/-- The element at position `j` is the entry of the filtered list at the count of the elements
before it that pass the filter. -/
theorem getElem?_filter_countP_take {α : Type} (p : α → Bool) :
    ∀ (l : List α) (j : Nat) (hj : j < l.length), p l[j] = true →
      (l.filter p)[(l.take j).countP p]? = some l[j]
  | a :: l, 0, _, h => by simp_all [List.filter_cons]
  | a :: l, j + 1, hj, h => by
    have ih := getElem?_filter_countP_take p l j (by simpa using hj) (by simpa using h)
    cases ha : p a <;> simp_all [List.filter_cons, List.countP_cons]

/-- Each symbol's replacement is valid in the promoted map's coordinates and reads that symbol
from the dims, then the `affine.apply` symbols, then the others. -/
theorem symReplacement_reads (ir : IR) (numDims : Nat) (symbols : List Value) {j : Nat}
    (hj : j < symbols.length) :
    ∃ r, symReplacement numDims (fun k => (indicesFromAffineApplyOp ir 0 symbols).contains k) j =
        some r ∧
      r.isValidIn (numDims + symbols.countP fun t => (ir.affineApplyOf t).isSome)
        (symbols.countP fun t => (ir.affineApplyOf t).isNone) ∧
      ∀ (dims : List Int) (ρ : Value → Int), dims.length = numDims →
        AffineMap.leafOperand (numDims + symbols.countP fun t => (ir.affineApplyOf t).isSome)
          (dims ++ (symbols.filter fun t => (ir.affineApplyOf t).isSome).map ρ ++
            (symbols.filter fun t => (ir.affineApplyOf t).isNone).map ρ) r = some (ρ symbols[j]) := by
  have hcontains := contains_indicesFromAffineApplyOp ir 0 symbols j hj
  rw [Nat.zero_add] at hcontains
  unfold symReplacement
  dsimp only
  rw [hcontains]
  cases happ : (ir.affineApplyOf symbols[j]).isSome
  · -- a remaining symbol: the next entry of the filtered others
    have hnone : (ir.affineApplyOf symbols[j]).isNone = true := by rw [← Option.not_isSome, happ]
    have hfilter := getElem?_filter_countP_take (fun t => (ir.affineApplyOf t).isNone) symbols j hj hnone
    have hlt := (List.getElem?_eq_some_iff.mp hfilter).1
    have hcount := countP_range_indicesFromAffineApplyOp ir symbols not j hj.le
    rw [show (fun t => !(ir.affineApplyOf t).isSome) = fun t => (ir.affineApplyOf t).isNone from
      funext fun t => by cases ir.affineApplyOf t <;> rfl] at hcount
    simp only [Bool.false_eq_true, ↓reduceIte, hcount]
    refine ⟨_, rfl, by simpa [AffineExpr.isValidIn, List.countP_eq_length_filter] using hlt,
      fun dims ρ hdims => ?_⟩
    rw [AffineMap.leafOperand, List.getElem?_append_right (by simp [hdims, List.countP_eq_length_filter]),
      List.length_append, List.length_map, hdims, ← List.countP_eq_length_filter,
      Nat.add_sub_cancel_left, List.getElem?_map, hfilter, Option.map_some']
  · -- a promoted symbol: the next entry of the filtered `affine.apply` symbols
    have hfilter := getElem?_filter_countP_take (fun t => (ir.affineApplyOf t).isSome) symbols j hj happ
    have hlt := (List.getElem?_eq_some_iff.mp hfilter).1
    have hcount := countP_range_indicesFromAffineApplyOp ir symbols id j hj.le
    simp only [id] at hcount
    simp only [↓reduceIte, hcount]
    refine ⟨_, rfl, by simpa [AffineExpr.isValidIn, List.countP_eq_length_filter] using hlt,
      fun dims ρ hdims => ?_⟩
    rw [AffineMap.leafOperand, List.append_assoc, List.getElem?_append_right (by omega), hdims,
      Nat.add_sub_cancel_left, List.getElem?_append_left (by simpa using hlt), List.getElem?_map,
      hfilter, Option.map_some']

/-- Promotion keeps a well-formed map well formed, adds a dim and drops a symbol per `affine.apply`
symbol, and keeps its value on the dims, the `affine.apply` symbols, then the other symbols. -/
theorem promoteComposedSymbolsAsDims_sound (ir : IR) (map : AffineMap) (symbols : List Value)
    (hwf : map.isWellFormed) (hsyms : symbols.length = map.numSymbols) :
    ∃ promoted, promoteComposedSymbolsAsDims ir map symbols = some promoted ∧
      promoted.isWellFormed ∧
      promoted.numDims = map.numDims + symbols.countP (fun t => (ir.affineApplyOf t).isSome) ∧
      promoted.numSymbols = map.numSymbols - symbols.countP (fun t => (ir.affineApplyOf t).isSome) ∧
      ∀ (dims : List Int) (ρ : Value → Int), dims.length = map.numDims →
        promoted.evalOn (dims ++ (symbols.filter fun t => (ir.affineApplyOf t).isSome).map ρ ++
            (symbols.filter fun t => (ir.affineApplyOf t).isNone).map ρ) =
          map.evalOn (dims ++ symbols.map ρ) := by
  have hsplit := countP_isSome_add_countP_isNone ir symbols
  by_cases hall : ∀ t ∈ symbols, ir.affineApplyOf t = none
  · -- no `affine.apply` symbol: the map is kept
    have hsome : symbols.countP (fun t => (ir.affineApplyOf t).isSome) = 0 :=
      List.countP_eq_zero.mpr fun t ht => by simp [hall t ht]
    have hnone : (symbols.filter fun t => (ir.affineApplyOf t).isNone) = symbols :=
      List.filter_eq_self.mpr fun t ht => by simp [hall t ht]
    have hsome' : (symbols.filter fun t => (ir.affineApplyOf t).isSome) = [] :=
      List.filter_eq_nil_iff.mpr fun t ht => by simp [hall t ht]
    refine ⟨map, promoteComposedSymbolsAsDims_of_forall hall, hwf, by rw [hsome]; rfl,
      by rw [hsome]; rfl, fun dims ρ _ => ?_⟩
    rw [hsome', hnone, List.map_nil, List.append_nil]
  unfold promoteComposedSymbolsAsDims
  split
  · rename_i hempty
    exact absurd (fun t ht => by simp [List.isEmpty_iff.mp hempty] at ht) hall
  dsimp only
  split
  · rename_i _ hnone
    exact absurd (indicesFromAffineApplyOp_eq_nil.mp (List.isEmpty_iff.mp hnone)) hall
  rcases hloop : symReplacementsLoop map.numDims (indicesFromAffineApplyOp ir 0 symbols)
    (List.range map.numSymbols) ([], 0, 0) with ⟨symReplacements, numNewDims, numNewSymbols⟩
  obtain ⟨-, hdims, hsyms'⟩ := symReplacementsLoop_spec map.numDims
    (indicesFromAffineApplyOp ir 0 symbols) (List.range map.numSymbols) ([], 0, 0) (by simp)
  have hsr := symReplacementsLoop_range map.numDims (indicesFromAffineApplyOp ir 0 symbols)
    map.numSymbols
  rw [hloop] at hdims hsyms' hsr
  dsimp only at hdims hsyms' hsr
  have hcountDims : numNewDims = symbols.countP fun t => (ir.affineApplyOf t).isSome := by
    have h := countP_range_indicesFromAffineApplyOp ir symbols id symbols.length le_rfl
    rw [List.take_length, hsyms] at h
    rw [hdims, Nat.zero_add]
    simpa using h
  have hcountSyms : numNewSymbols = symbols.countP fun t => (ir.affineApplyOf t).isNone := by
    have h := countP_range_indicesFromAffineApplyOp ir symbols not symbols.length le_rfl
    rw [List.take_length, hsyms] at h
    rw [hsyms', Nat.zero_add, h]
    exact List.countP_congr fun t _ => by cases ir.affineApplyOf t <;> rfl
  subst hcountDims hcountSyms
  -- every symbol's entry reads that symbol among the reordered operands
  have hentry : ∀ j (hj : j < symbols.length), ∃ r, symReplacements.getD j (some (.symbol j)) = some r ∧
      r.isValidIn (map.numDims + symbols.countP fun t => (ir.affineApplyOf t).isSome)
        (symbols.countP fun t => (ir.affineApplyOf t).isNone) ∧
      ∀ (dims : List Int) (ρ : Value → Int), dims.length = map.numDims →
        AffineMap.leafOperand (map.numDims + symbols.countP fun t => (ir.affineApplyOf t).isSome)
          (dims ++ (symbols.filter fun t => (ir.affineApplyOf t).isSome).map ρ ++
            (symbols.filter fun t => (ir.affineApplyOf t).isNone).map ρ) r =
          some (ρ symbols[j]) := by
    intro j hj
    rw [hsr, List.getD_eq_getElem?_getD, List.getElem?_map, List.getElem?_range (hsyms ▸ hj)]
    exact symReplacement_reads ir map.numDims symbols hj
  have hsymlt : ∀ e ∈ map.results, ∀ j, e.usesSymbol j → j < symbols.length :=
    fun e he j hj => hsyms ▸ AffineMap.usesSymbol_lt hwf he hj
  obtain ⟨promoted, hp⟩ := Option.isSome_iff_exists.mp
    (@AffineMap.replaceDimsAndSymbols_isSome map [] symReplacements _ _ (fun _ _ i _ => by simp)
      fun e he j hj => by
        obtain ⟨r, hr, -⟩ := hentry j (hsymlt e he j hj)
        exact hr ▸ Option.some_ne_none r)
  obtain ⟨-, hnd, hns⟩ := AffineMap.results_length_of_replaceDimsAndSymbols hp
  refine ⟨promoted, hp, ?_, hnd, by rw [hns]; dsimp only; omega, fun dims ρ hdims => ?_⟩
  · refine AffineMap.isWellFormed_of_replaceDimsAndSymbols hp (fun e he i hi => ?_)
      fun e he j hj => ?_
    · exact ⟨_, List.getD_nil, by simp [AffineExpr.isValidIn]; have := AffineMap.usesDim_lt hwf he hi; omega⟩
    · obtain ⟨r, hr, hvalid, -⟩ := hentry j (hsymlt e he j hj)
      exact ⟨r, hr, hvalid⟩
  · have h : promoted.evalOn ((dims ++ (symbols.filter fun t => (ir.affineApplyOf t).isSome).map ρ ++
        (symbols.filter fun t => (ir.affineApplyOf t).isNone).map ρ).map id) =
        map.evalOn ((dims ++ symbols.map ρ).map id) :=
      AffineMap.evalOn_eq_of_replaceDimsAndSymbols hp (fun e he i hi => ?_) (fun e he j hj => ?_) id
    · simpa using h
    · have hi' : i < dims.length := by have := AffineMap.usesDim_lt hwf he hi; omega
      refine ⟨.dim i, dims[i], List.getD_nil, ?_, ?_⟩
      · rw [List.getElem?_append_left (by omega), List.getElem?_eq_getElem]
      · rw [AffineMap.leafOperand, List.append_assoc, List.getElem?_append_left (by omega),
          List.getElem?_eq_getElem]
    · obtain ⟨r, hr, -, hread⟩ := hentry j (hsymlt e he j hj)
      refine ⟨r, _, hr, ?_, hread dims ρ hdims⟩
      rw [List.getElem?_append_right (by omega), hdims, Nat.add_sub_cancel_left, List.getElem?_map,
        List.getElem?_eq_getElem (hsymlt e he j hj), Option.map_some']

/-- Two function arguments `%N` and `%M` (values `0` and `1`) and
`%a = affine.apply ()[s0] -> (s0) ()[%M]` (value `2`), all at the top level of the function. -/
def symbolApply : IR :=
  ⟨[⟨true, true, none⟩, ⟨true, true, none⟩,
    ⟨true, true, some (.affineApply ⟨0, 1, [.symbol 0]⟩ [1])⟩], by decide⟩

/-- `()[s0, s1] -> (s0 + s1)`. -/
def symbolSum : AffineMap := ⟨0, 2, [.binary .add (.symbol 0) (.symbol 1)]⟩

namespace AffineApplyNormalizer

/-- The operand loop when the depth allows no further composition: operands before the
rewritten map's dim count are renumbered as dims, the others concatenated as symbols. -/
def dispatchOnly (numDims : Nat) :
    Nat → List Value → AffineApplyNormalizer × List AffineExpr → AffineApplyNormalizer × List AffineExpr
  | _, [], acc => acc
  | i, t :: rest, (n, auxiliaryExprs) =>
    if i < numDims then
      let (e, n) := n.renumberOneDim t
      dispatchOnly numDims (i + 1) rest (n, auxiliaryExprs ++ [e])
    else
      dispatchOnly numDims (i + 1) rest
        ({ n with concatenatedSymbols := n.concatenatedSymbols ++ [t] }, auxiliaryExprs)

/-- The operand loop that composes: an `affine.apply` operand is normalized by `nested` and
renumbered; others are dims before `numDimsBeforeRewrite` and concatenated symbols after. -/
def composeAndDispatch (ir : IR) (nested : AffineMap → List Value → Option AffineApplyNormalizer)
    (numDimsBeforeRewrite : Nat) :
    Nat → List Value → AffineApplyNormalizer × List AffineExpr →
      Option (AffineApplyNormalizer × List AffineExpr)
  | _, [], acc => some acc
  | i, t :: rest, (n, auxiliaryExprs) =>
    match ir.affineApplyOf t with
    | some (affineApplyMap, affineApplyOperands) => do
      let normalizer ← nested affineApplyMap affineApplyOperands
      let (renumberedMap, n) ← n.renumber normalizer
      let e ← renumberedMap.results.head?
      composeAndDispatch ir nested numDimsBeforeRewrite (i + 1) rest (n, auxiliaryExprs ++ [e])
    | none =>
      if i < numDimsBeforeRewrite then
        let (e, n) := n.renumberOneDim t
        composeAndDispatch ir nested numDimsBeforeRewrite (i + 1) rest (n, auxiliaryExprs ++ [e])
      else
        composeAndDispatch ir nested numDimsBeforeRewrite (i + 1) rest
          ({ n with concatenatedSymbols := n.concatenatedSymbols ++ [t] }, auxiliaryExprs)

/-- `auxiliaryMap`: the dispatched expressions over all renumbered dims and over the
concatenated symbols beyond the rewritten map's own symbol count. -/
def auxiliaryMap (map : AffineMap) (n : AffineApplyNormalizer) (auxiliaryExprs : List AffineExpr) :
    AffineMap :=
  ⟨n.dimValueToPosition.length, n.concatenatedSymbols.length - map.numSymbols, auxiliaryExprs⟩

/-- The end of the constructor: an already composed map is kept, otherwise it is composed
with the auxiliary map and simplified. -/
def finish (map : AffineMap) (n : AffineApplyNormalizer) (auxiliaryExprs : List AffineExpr) :
    Option AffineApplyNormalizer :=
  if auxiliaryExprs.isEmpty then some { n with affineMap := map }
  else (map.compose (auxiliaryMap map n auxiliaryExprs)).map fun composed =>
    { n with affineMap := simplifyAffineMap composed }

/-- The constructor at a depth that allows `budget` further levels of composition. -/
def build (ir : IR) : Nat → AffineMap → List Value → Option AffineApplyNormalizer
  | 0, map, operands => do
    let map ← promoteComposedSymbolsAsDims ir map (operands.drop (operands.length - map.numSymbols))
    let (n, auxiliaryExprs) := dispatchOnly map.numDims 0 operands (empty, [])
    finish map n auxiliaryExprs
  | budget + 1, map, operands => do
    let numDimsBeforeRewrite := map.numDims
    let map ← promoteComposedSymbolsAsDims ir map (operands.drop (operands.length - map.numSymbols))
    let (n, auxiliaryExprs) ←
      composeAndDispatch ir (build ir budget) numDimsBeforeRewrite 0 operands (empty, [])
    finish map n auxiliaryExprs

/-- `AffineApplyNormalizer(map, operands)` outside any normalizer: at depth 1, it may compose
`kMaxAffineApplyDepth` levels. -/
def new (ir : IR) (map : AffineMap) (operands : List Value) : Option AffineApplyNormalizer :=
  build ir kMaxAffineApplyDepth map operands

/-- What one iteration of the composing loop does with operand `t` at position `i`. -/
inductive DispatchStep (ir : IR) (nested : AffineMap → List Value → Option AffineApplyNormalizer)
    (numDimsBeforeRewrite i : Nat) (t : Value) :
    AffineApplyNormalizer × List AffineExpr → AffineApplyNormalizer × List AffineExpr → Prop
  /-- An `affine.apply` result: the nested normalizer's map is renumbered into this one. -/
  | compose {n n' other : AffineApplyNormalizer} {auxiliaryExprs : List AffineExpr}
      {map renumberedMap : AffineMap} {operands : List Value} {e : AffineExpr} :
      ir.affineApplyOf t = some (map, operands) → nested map operands = some other →
      n.renumber other = some (renumberedMap, n') → renumberedMap.results.head? = some e →
      DispatchStep ir nested numDimsBeforeRewrite i t (n, auxiliaryExprs) (n', auxiliaryExprs ++ [e])
  /-- Another operand in a dim position becomes a dim. -/
  | dim {n : AffineApplyNormalizer} {auxiliaryExprs : List AffineExpr} :
      ir.affineApplyOf t = none → i < numDimsBeforeRewrite →
      DispatchStep ir nested numDimsBeforeRewrite i t (n, auxiliaryExprs)
        ((n.renumberOneDim t).2, auxiliaryExprs ++ [(n.renumberOneDim t).1])
  /-- Another operand in a symbol position is appended to the symbols. -/
  | symbol {n : AffineApplyNormalizer} {auxiliaryExprs : List AffineExpr} :
      ir.affineApplyOf t = none → ¬i < numDimsBeforeRewrite →
      DispatchStep ir nested numDimsBeforeRewrite i t (n, auxiliaryExprs)
        ({ n with concatenatedSymbols := n.concatenatedSymbols ++ [t] }, auxiliaryExprs)

section Dispatch

variable {ir : IR} {nested : AffineMap → List Value → Option AffineApplyNormalizer}
  {numDimsBeforeRewrite : Nat}

/-- A successful run of the composing loop starts with one step. -/
theorem composeAndDispatch_cons {i : Nat} {t : Value} {rest : List Value}
    {s fin : AffineApplyNormalizer × List AffineExpr}
    (h : composeAndDispatch ir nested numDimsBeforeRewrite i (t :: rest) s = some fin) :
    ∃ s', DispatchStep ir nested numDimsBeforeRewrite i t s s' ∧
      composeAndDispatch ir nested numDimsBeforeRewrite (i + 1) rest s' = some fin := by
  obtain ⟨n, auxiliaryExprs⟩ := s
  simp only [composeAndDispatch] at h
  split at h
  · rename_i map operands happ
    simp only [Option.bind_eq_bind, Option.bind_eq_some] at h
    obtain ⟨other, hother, ⟨renumberedMap, n'⟩, hren, e, he, h⟩ := h
    exact ⟨_, .compose happ hother hren he, h⟩
  · rename_i happ
    split at h
    · exact ⟨_, .dim happ ‹_›, h⟩
    · exact ⟨_, .symbol happ ‹_›, h⟩

/-- One step keeps every dim within `Pd` and every symbol within `Ps`. -/
theorem dispatchStep_mem {Pd Ps : Value → Prop} {i : Nat} {t : Value}
    {s s' : AffineApplyNormalizer × List AffineExpr}
    (hstep : DispatchStep ir nested numDimsBeforeRewrite i t s s')
    (hnested : ∀ map operands other, ir.affineApplyOf t = some (map, operands) →
      nested map operands = some other →
      (∀ v ∈ other.reorderedDims, Pd v) ∧ ∀ v ∈ other.concatenatedSymbols, Ps v)
    (hdim : i < numDimsBeforeRewrite → ir.affineApplyOf t = none → Pd t)
    (hsym : ¬i < numDimsBeforeRewrite → ir.affineApplyOf t = none → Ps t)
    (hd : ∀ v ∈ s.1.reorderedDims, Pd v) (hs : ∀ v ∈ s.1.concatenatedSymbols, Ps v) :
    (∀ v ∈ s'.1.reorderedDims, Pd v) ∧ ∀ v ∈ s'.1.concatenatedSymbols, Ps v := by
  cases hstep with
  | compose happ hother hren _ =>
    obtain ⟨hd', hs'⟩ := hnested _ _ _ happ hother
    obtain ⟨hd₁, hs₁⟩ := renumber_spec hren
    exact ⟨fun v hv => (hd₁ v hv).elim (hd v) (hd' v),
      fun v hv => (List.mem_append.mp (hs₁ ▸ hv)).elim (hs v) (hs' v)⟩
  | dim happ hi =>
    obtain ⟨hd₁, hs₁⟩ := renumberOneDim_spec _ t
    exact ⟨fun v hv => (hd₁ v hv).elim (hd v) fun hv => hv ▸ hdim hi happ,
      fun v hv => hs v (hs₁ ▸ hv)⟩
  | symbol happ hi =>
    exact ⟨hd, fun v hv => (List.mem_append.mp hv).elim (hs v) fun hv =>
      (List.mem_singleton.mp hv) ▸ hsym hi happ⟩

/-- The loop's operand is among the dim operands left at a dim position and among the symbol
operands otherwise, and the rest move up by one position. -/
private theorem mem_take_drop_cons {t : Value} {rest : List Value} {k : Nat} :
    (0 < k → t ∈ (t :: rest).take k) ∧ (k = 0 → t ∈ (t :: rest).drop k) ∧
      (∀ x ∈ rest.take (k - 1), x ∈ (t :: rest).take k) ∧
      ∀ x ∈ rest.drop (k - 1), x ∈ (t :: rest).drop k := by
  cases k with
  | zero => exact ⟨by simp, fun _ => List.mem_cons_self _ _, by simp,
      fun x hx => List.mem_cons_of_mem _ (by simpa using hx)⟩
  | succ k => exact ⟨fun _ => List.mem_cons_self _ _, by simp, fun x hx => List.mem_cons_of_mem _ hx,
      fun x hx => hx⟩

/-- Every dim and symbol the composing loop adds satisfies `Pd` and `Ps` when the nested
normalizers' dims and symbols do, and the loop's own dim and symbol operands do. -/
theorem composeAndDispatch_mem (Pd Ps : Value → Prop) (l : List Value) :
    ∀ (i : Nat) (n n' : AffineApplyNormalizer) (aux aux' : List AffineExpr),
    (∀ t ∈ l, ∀ map operands other, ir.affineApplyOf t = some (map, operands) →
      nested map operands = some other →
      (∀ v ∈ other.reorderedDims, Pd v) ∧ ∀ v ∈ other.concatenatedSymbols, Ps v) →
    (∀ t ∈ l.take (numDimsBeforeRewrite - i), ir.affineApplyOf t = none → Pd t) →
    (∀ t ∈ l.drop (numDimsBeforeRewrite - i), ir.affineApplyOf t = none → Ps t) →
    composeAndDispatch ir nested numDimsBeforeRewrite i l (n, aux) = some (n', aux') →
    (∀ v ∈ n.reorderedDims, Pd v) → (∀ v ∈ n.concatenatedSymbols, Ps v) →
    (∀ v ∈ n'.reorderedDims, Pd v) ∧ ∀ v ∈ n'.concatenatedSymbols, Ps v := by
  induction l with
  | nil =>
    intro i n n' aux aux' _ _ _ h hd hs
    cases h
    exact ⟨hd, hs⟩
  | cons t rest ih =>
    intro i n n' aux aux' hnested hdim hsym h hd hs
    obtain ⟨⟨n₁, aux₁⟩, hstep, h⟩ := composeAndDispatch_cons h
    have hk : numDimsBeforeRewrite - (i + 1) = numDimsBeforeRewrite - i - 1 := by omega
    obtain ⟨hhd, hhs, htd, hts⟩ := @mem_take_drop_cons t rest (numDimsBeforeRewrite - i)
    obtain ⟨hd₁, hs₁⟩ := dispatchStep_mem hstep (hnested t (List.mem_cons_self _ _))
      (fun hi => hdim t (hhd (by omega))) (fun hi => hsym t (hhs (by omega))) hd hs
    exact ih (i + 1) n₁ n' aux₁ aux' (fun u hu => hnested u (List.mem_cons_of_mem _ hu))
      (fun u hu => hdim u (htd u (hk ▸ hu))) (fun u hu => hsym u (hts u (hk ▸ hu))) h hd₁ hs₁

/-- A step appends one auxiliary expression, or else a plain operand in a symbol position to the
symbols. -/
theorem dispatchStep_cases {i : Nat} {t : Value} {s s' : AffineApplyNormalizer × List AffineExpr}
    (hstep : DispatchStep ir nested numDimsBeforeRewrite i t s s') :
    (∃ e, s'.2 = s.2 ++ [e]) ∨ (ir.affineApplyOf t = none ∧ ¬i < numDimsBeforeRewrite ∧
      s' = ({ s.1 with concatenatedSymbols := s.1.concatenatedSymbols ++ [t] }, s.2)) := by
  cases hstep with
  | compose => exact .inl ⟨_, rfl⟩
  | dim => exact .inl ⟨_, rfl⟩
  | symbol happ hi => exact .inr ⟨happ, hi, rfl⟩

/-- A step never shortens the symbols, and lengthens them by one for a plain operand in a
symbol position. -/
theorem dispatchStep_concatenatedSymbols_length {i : Nat} {t : Value}
    {s s' : AffineApplyNormalizer × List AffineExpr}
    (hstep : DispatchStep ir nested numDimsBeforeRewrite i t s s') :
    s.1.concatenatedSymbols.length +
        (if numDimsBeforeRewrite - i = 0 ∧ (ir.affineApplyOf t).isNone then 1 else 0) ≤
      s'.1.concatenatedSymbols.length := by
  cases hstep with
  | compose happ _ hren _ => simp [happ, (renumber_spec hren).2]
  | dim _ hi => simp [(renumberOneDim_spec _ t).2, show numDimsBeforeRewrite - i ≠ 0 by omega]
  | symbol happ hi => simp [happ, show numDimsBeforeRewrite - i = 0 by omega]

/-- The composing loop never drops an auxiliary expression. -/
theorem composeAndDispatch_length_le (l : List Value) :
    ∀ (i : Nat) (s s' : AffineApplyNormalizer × List AffineExpr),
    composeAndDispatch ir nested numDimsBeforeRewrite i l s = some s' → s.2.length ≤ s'.2.length := by
  induction l with
  | nil =>
    intro i s s' h
    cases h
    exact Nat.le_refl _
  | cons t rest ih =>
    intro i s s' h
    obtain ⟨s₁, hstep, h⟩ := composeAndDispatch_cons h
    refine Nat.le_trans ?_ (ih (i + 1) s₁ s' h)
    rcases dispatchStep_cases hstep with ⟨e, he⟩ | ⟨-, -, rfl⟩
    · simp [he]
    · exact Nat.le_refl _

/-- Counting a suffix from position `k` of a list with one more element in front. -/
theorem countP_drop_cons (p : Value → Bool) (t : Value) (rest : List Value) (k : Nat) :
    ((t :: rest).drop k).countP p = (rest.drop (k - 1)).countP p + if k = 0 ∧ p t then 1 else 0 := by
  cases k with
  | zero => simp [List.countP_cons]
  | succ k => simp

/-- The composing loop appends at least every plain operand in a symbol position to the
symbols. -/
theorem composeAndDispatch_concatenatedSymbols_length (l : List Value) :
    ∀ (i : Nat) (s s' : AffineApplyNormalizer × List AffineExpr),
    composeAndDispatch ir nested numDimsBeforeRewrite i l s = some s' →
    s.1.concatenatedSymbols.length +
        (l.drop (numDimsBeforeRewrite - i)).countP (fun t => (ir.affineApplyOf t).isNone) ≤
      s'.1.concatenatedSymbols.length := by
  induction l with
  | nil =>
    intro i s s' h
    cases h
    simp
  | cons t rest ih =>
    intro i s s' h
    obtain ⟨s₁, hstep, h⟩ := composeAndDispatch_cons h
    have h₁ := dispatchStep_concatenatedSymbols_length hstep
    have h₂ := ih (i + 1) s₁ s' h
    rw [countP_drop_cons, show numDimsBeforeRewrite - i - 1 = numDimsBeforeRewrite - (i + 1) by omega]
    omega

/-- A run of the composing loop that adds no auxiliary expression met only plain operands in
symbol positions, and appended them all to the symbols. -/
theorem composeAndDispatch_of_length_eq (l : List Value) :
    ∀ (i : Nat) (n n' : AffineApplyNormalizer) (aux aux' : List AffineExpr),
    composeAndDispatch ir nested numDimsBeforeRewrite i l (n, aux) = some (n', aux') →
    aux'.length = aux.length →
    l.take (numDimsBeforeRewrite - i) = [] ∧ (∀ t ∈ l, ir.affineApplyOf t = none) ∧
      n' = { n with concatenatedSymbols := n.concatenatedSymbols ++ l } := by
  induction l with
  | nil =>
    intro i n n' aux aux' h _
    cases h
    simp
  | cons t rest ih =>
    intro i n n' aux aux' h haux
    obtain ⟨⟨n₁, aux₁⟩, hstep, h⟩ := composeAndDispatch_cons h
    have hle := composeAndDispatch_length_le rest (i + 1) _ _ h
    rcases dispatchStep_cases hstep with ⟨e, he⟩ | ⟨happ, hi, hs⟩
    · simp only at he hle
      simp [he] at hle
      omega
    · simp only [Prod.mk.injEq] at hs
      obtain ⟨rfl, rfl⟩ := hs
      obtain ⟨-, hrest, rfl⟩ := ih (i + 1) _ n' _ aux' h haux
      refine ⟨by rw [show numDimsBeforeRewrite - i = 0 by omega]; rfl,
        List.forall_mem_cons.mpr ⟨happ, hrest⟩, by simp⟩

end Dispatch

/-- The loop without composition: dims from the operands before `numDims`, symbols from the rest,
and one auxiliary expression per dim position. -/
theorem dispatchOnly_spec (numDims : Nat) (l : List Value) :
    ∀ (i : Nat) (n : AffineApplyNormalizer) (aux : List AffineExpr),
    (∀ w ∈ (dispatchOnly numDims i l (n, aux)).1.reorderedDims,
        w ∈ n.reorderedDims ∨ w ∈ l.take (numDims - i)) ∧
      (dispatchOnly numDims i l (n, aux)).1.concatenatedSymbols =
        n.concatenatedSymbols ++ l.drop (numDims - i) ∧
      (dispatchOnly numDims i l (n, aux)).2.length = aux.length + (l.take (numDims - i)).length := by
  induction l with
  | nil => intro i n aux; simp [dispatchOnly]
  | cons t rest ih =>
    intro i n aux
    by_cases hi : i < numDims
    · rcases h₁ : n.renumberOneDim t with ⟨e, n₁⟩
      obtain ⟨hd₁, hs₁⟩ := renumberOneDim_spec n t
      rw [h₁] at hd₁ hs₁
      obtain ⟨k, hk⟩ : ∃ k, numDims - i = k + 1 := ⟨numDims - i - 1, by omega⟩
      have hk' : numDims - (i + 1) = k := by omega
      simp only [dispatchOnly, if_pos hi, h₁]
      obtain ⟨hd, hs, ha⟩ := ih (i + 1) n₁ (aux ++ [e])
      rw [hk'] at hd hs ha
      refine ⟨fun w hw => ?_, by rw [hs, hs₁, hk, List.drop_succ_cons],
        by rw [ha, hk, List.take_succ_cons]; simp; omega⟩
      rw [hk, List.take_succ_cons]
      rcases hd w hw with hw | hw
      · rcases hd₁ w hw with hw | rfl
        · exact .inl hw
        · exact .inr (List.mem_cons_self _ _)
      · exact .inr (List.mem_cons_of_mem _ hw)
    · have hk : numDims - i = 0 := by omega
      have hk' : numDims - (i + 1) = 0 := by omega
      simp only [dispatchOnly, if_neg hi]
      obtain ⟨hd, hs, ha⟩ := ih (i + 1) { n with concatenatedSymbols := n.concatenatedSymbols ++ [t] } aux
      rw [hk'] at hd hs ha
      rw [hk]
      exact ⟨fun w hw => by simpa using hd w hw, by simpa using hs, by simpa using ha⟩

/-- The constructor's end keeps dims, symbols and result count; its map has one input per dim and
symbol when enough symbols are left, and nothing dispatched leaves the rewritten map's counts. -/
theorem finish_spec {map : AffineMap} {n N : AffineApplyNormalizer} {auxiliaryExprs : List AffineExpr}
    (h : finish map n auxiliaryExprs = some N) :
    N.reorderedDims = n.reorderedDims ∧ N.concatenatedSymbols = n.concatenatedSymbols ∧
      N.affineMap.results.length = map.results.length ∧
      (map.numSymbols ≤ n.concatenatedSymbols.length →
        (auxiliaryExprs = [] →
          map.numDims = n.reorderedDims.length ∧ map.numSymbols = n.concatenatedSymbols.length) →
        N.affineMap.numDims = N.reorderedDims.length ∧
          N.affineMap.numSymbols = N.concatenatedSymbols.length) := by
  unfold finish at h
  split at h
  · cases h
    exact ⟨rfl, rfl, rfl, fun _ hempty => hempty (List.isEmpty_iff.mp ‹_›)⟩
  · obtain ⟨composed, hc, rfl⟩ := Option.map_eq_some'.mp h
    obtain ⟨hnd, hns, hlen⟩ := AffineMap.compose_eq_some hc
    refine ⟨rfl, rfl, by simp [hlen], fun hsyms _ => ⟨?_, ?_⟩⟩
    · simp [hnd, auxiliaryMap, dimValueToPosition_length]
    · simp only [AffineMap.simplifyAffineMap_numSymbols, hns, auxiliaryMap]
      omega

/-- On as many operands as inputs, every level of the constructor builds a map with one input
per dim and symbol it collected, and as many results as the map it was given. -/
theorem build_spec {ir : IR} {budget : Nat} {map : AffineMap} {operands : List Value}
    {N : AffineApplyNormalizer} (hlen : operands.length = map.numInputs)
    (h : build ir budget map operands = some N) :
    N.affineMap.numDims = N.reorderedDims.length ∧
      N.affineMap.numSymbols = N.concatenatedSymbols.length ∧
      N.affineMap.results.length = map.results.length := by
  have hdrop : operands.length - map.numSymbols = map.numDims := by
    simp [hlen, AffineMap.numInputs]
  obtain ⟨pm, hpm, hpnd, hpns, hpres⟩ := promoteComposedSymbolsAsDims_spec ir map
    (operands.drop map.numDims) (by simp [hlen, AffineMap.numInputs])
  have hsplit := countP_isSome_add_countP_isNone ir (operands.drop map.numDims)
  cases budget with
  | zero =>
    simp only [build, hdrop, hpm, Option.bind_eq_bind, Option.some_bind] at h
    rcases hdo : dispatchOnly pm.numDims 0 operands (empty, []) with ⟨n, aux⟩
    obtain ⟨hd, hs, ha⟩ := dispatchOnly_spec pm.numDims operands 0 empty []
    rw [hdo] at h hd hs ha
    simp only [Nat.sub_zero, empty_reorderedDims, empty_concatenatedSymbols, List.nil_append,
      List.not_mem_nil, false_or, List.length_nil, Nat.zero_add] at hd hs ha
    have hcount : n.concatenatedSymbols.length = pm.numSymbols := by
      rw [hs, List.length_drop, hpns, hlen, AffineMap.numInputs, hpnd]
      simp only [List.length_drop, hlen, AffineMap.numInputs] at hsplit
      omega
    have hempty : aux = [] → pm.numDims = n.reorderedDims.length ∧
        pm.numSymbols = n.concatenatedSymbols.length := by
      intro hnil
      have hc := List.countP_le_length (fun t => (ir.affineApplyOf t).isSome)
        (l := operands.drop map.numDims)
      rw [hnil, List.length_nil, List.length_take] at ha
      rw [List.length_drop] at hc
      have hp : pm.numDims = 0 := by rw [hlen, AffineMap.numInputs] at ha hc; omega
      have hn : n.reorderedDims = [] :=
        List.eq_nil_iff_forall_not_mem.mpr fun w hw => by simpa [hp] using hd w hw
      rw [hp, hn]
      exact ⟨rfl, hcount.symm⟩
    obtain ⟨-, -, hres, hcounts⟩ := finish_spec h
    exact ⟨(hcounts hcount.ge hempty).1, (hcounts hcount.ge hempty).2, hres.trans hpres⟩
  | succ budget =>
    simp only [build, hdrop, hpm, Option.bind_eq_bind, Option.some_bind] at h
    obtain ⟨⟨n, aux⟩, hloop, h⟩ := Option.bind_eq_some.mp h
    have hcount := composeAndDispatch_concatenatedSymbols_length operands 0 _ _ hloop
    simp only [empty_concatenatedSymbols, List.length_nil, Nat.zero_add, Nat.sub_zero] at hcount
    have hempty : aux = [] → pm.numDims = n.reorderedDims.length ∧
        pm.numSymbols = n.concatenatedSymbols.length := by
      rintro rfl
      obtain ⟨htake, hall, rfl⟩ := composeAndDispatch_of_length_eq operands 0 empty n [] [] hloop rfl
      have hpm' := @promoteComposedSymbolsAsDims_of_forall ir map (operands.drop map.numDims)
        fun t ht => hall t (List.mem_of_mem_drop ht)
      rw [hpm] at hpm'
      cases hpm'
      have hnd : map.numDims = 0 := by
        rcases List.take_eq_nil_iff.mp htake with h0 | h0
        · simpa using h0
        · simp [h0, AffineMap.numInputs] at hlen
          omega
      simp [hnd, hlen, AffineMap.numInputs]
    obtain ⟨-, -, hres, hcounts⟩ := finish_spec h
    exact ⟨(hcounts (hpns ▸ hcount) hempty).1, (hcounts (hpns ▸ hcount) hempty).2,
      hres.trans hpres⟩

/-- On a verified `affine.apply` of a verified function, every level of the constructor collects
valid dims and valid symbols, all of `index` type. -/
theorem build_classes {ir : IR} (hir : ir.affineAppliesVerified) (budget : Nat) :
    ∀ {map : AffineMap} {operands : List Value} {resultIsIndex : Bool} {N : AffineApplyNormalizer},
    verifyAffineApply ir map operands resultIsIndex = .ok () →
    build ir budget map operands = some N →
    (∀ v ∈ N.reorderedDims, isValidDim ir v ∧ (ir.info v).isIndex) ∧
      ∀ v ∈ N.concatenatedSymbols, isValidSymbol ir v ∧ (ir.info v).isIndex := by
  induction budget with
  | zero =>
    intro map operands resultIsIndex N hver h
    obtain ⟨hlen, hidx, -, ⟨-, hsyms⟩, -⟩ := verifyAffineApply_eq_ok.mp hver
    have hdrop : operands.length - map.numSymbols = map.numDims := by
      simp [hlen, AffineMap.numInputs]
    obtain ⟨pm, hpm, hpnd, -⟩ := promoteComposedSymbolsAsDims_spec ir map
      (operands.drop map.numDims) (by simp [hlen, AffineMap.numInputs])
    simp only [build, hdrop, hpm, Option.bind_eq_bind, Option.some_bind] at h
    rcases hdo : dispatchOnly pm.numDims 0 operands (empty, []) with ⟨n, aux⟩
    obtain ⟨hd, hs, -⟩ := dispatchOnly_spec pm.numDims operands 0 empty []
    rw [hdo] at h hd hs
    obtain ⟨hN₁, hN₂, -⟩ := finish_spec h
    rw [hN₁, hN₂]
    refine ⟨fun v hv => ?_, fun v hv => ?_⟩
    · have hv : v ∈ operands := List.mem_of_mem_take (by simpa using hd v hv)
      exact ⟨isValidDim_of_mem_operands hver hv, hidx v hv⟩
    · rw [hs, empty_concatenatedSymbols, List.nil_append, Nat.sub_zero,
        show pm.numDims = map.numDims + (pm.numDims - map.numDims) by omega, ← List.drop_drop] at hv
      have hv := List.mem_of_mem_drop hv
      exact ⟨hsyms v hv, hidx v (List.mem_of_mem_drop hv)⟩
  | succ budget ih =>
    intro map operands resultIsIndex N hver h
    obtain ⟨hlen, hidx, -, ⟨hdims, hsyms⟩, -⟩ := verifyAffineApply_eq_ok.mp hver
    have hdrop : operands.length - map.numSymbols = map.numDims := by
      simp [hlen, AffineMap.numInputs]
    obtain ⟨pm, hpm, -⟩ := promoteComposedSymbolsAsDims_spec ir map
      (operands.drop map.numDims) (by simp [hlen, AffineMap.numInputs])
    simp only [build, hdrop, hpm, Option.bind_eq_bind, Option.some_bind] at h
    obtain ⟨⟨n, aux⟩, hloop, h⟩ := Option.bind_eq_some.mp h
    obtain ⟨hN₁, hN₂, -⟩ := finish_spec h
    rw [hN₁, hN₂]
    exact composeAndDispatch_mem (fun v => isValidDim ir v ∧ (ir.info v).isIndex)
      (fun v => isValidSymbol ir v ∧ (ir.info v).isIndex) operands 0 empty n [] aux
      (fun t _ m ops other happ hother => ih (hir t m ops happ) hother)
      (fun t ht _ => ⟨hdims t ht, hidx t (List.mem_of_mem_take ht)⟩)
      (fun t ht _ => ⟨hsyms t ht, hidx t (List.mem_of_mem_drop ht)⟩)
      hloop (by simp) (by simp)

/-- The constructor at depth 2 only collects the operands it is given. -/
theorem build_zero_mem {ir : IR} {map : AffineMap} {operands : List Value}
    {N : AffineApplyNormalizer} (h : build ir 0 map operands = some N) :
    ∀ v ∈ N.getOperands, v ∈ operands := by
  simp only [build, Option.bind_eq_bind, Option.bind_eq_some] at h
  obtain ⟨pm, -, h⟩ := h
  rcases hdo : dispatchOnly pm.numDims 0 operands (empty, []) with ⟨n, aux⟩
  obtain ⟨hd, hs, -⟩ := dispatchOnly_spec pm.numDims operands 0 empty []
  rw [hdo] at h hd hs
  simp only [Nat.sub_zero, empty_reorderedDims, empty_concatenatedSymbols, List.nil_append,
    List.not_mem_nil, false_or] at hd hs
  obtain ⟨hN₁, hN₂, -⟩ := finish_spec h
  intro v hv
  rcases List.mem_append.mp hv with hv | hv
  · exact List.mem_of_mem_take (hd v (hN₁ ▸ hv))
  · rw [hN₂, hs] at hv
    exact List.mem_of_mem_drop hv

/-- Every operand of a normalizer built outside any normalizer is one of its operands that no
`affine.apply` defines, or an operand of an `affine.apply` that defines one of them. -/
theorem new_mem {ir : IR} {map : AffineMap} {operands : List Value} {N : AffineApplyNormalizer}
    (h : new ir map operands = some N) :
    ∀ v ∈ N.getOperands, (v ∈ operands ∧ ir.affineApplyOf v = none) ∨
      ∃ t ∈ operands, ∃ m ops, ir.affineApplyOf t = some (m, ops) ∧ v ∈ ops := by
  simp only [new, kMaxAffineApplyDepth, build, Option.bind_eq_bind, Option.bind_eq_some] at h
  obtain ⟨pm, -, ⟨n, aux⟩, hloop, h⟩ := h
  obtain ⟨hN₁, hN₂, -⟩ := finish_spec h
  let P : Value → Prop := fun v => (v ∈ operands ∧ ir.affineApplyOf v = none) ∨
    ∃ t ∈ operands, ∃ m ops, ir.affineApplyOf t = some (m, ops) ∧ v ∈ ops
  obtain ⟨hd, hs⟩ := composeAndDispatch_mem P P operands 0 empty n [] aux
    (fun t ht m ops other happ hother =>
      have hmem := build_zero_mem hother
      ⟨fun v hv => .inr ⟨t, ht, m, ops, happ, hmem v (List.mem_append_left _ hv)⟩,
        fun v hv => .inr ⟨t, ht, m, ops, happ, hmem v (List.mem_append_right _ hv)⟩⟩)
    (fun t ht hplain => .inl ⟨List.mem_of_mem_take ht, hplain⟩)
    (fun t ht hplain => .inl ⟨List.mem_of_mem_drop ht, hplain⟩)
    hloop (by simp) (by simp)
  intro v hv
  rcases List.mem_append.mp hv with hv | hv
  · exact hd v (hN₁ ▸ hv)
  · exact hs v (hN₂ ▸ hv)

end AffineApplyNormalizer

/-- The auxiliary map of `%a` in `()[s0, s1] -> (s0 + s1) ()[%N, %a]` reads its symbol `%M` as
`s1` but declares one symbol, so `AffineMap::compose` meets a null and the constructor fails. -/
theorem auxiliaryMap_not_wellFormed :
    symbolApply.affineAppliesVerified ∧
      verifyAffineApply symbolApply symbolSum [0, 2] true = .ok () ∧ symbolSum.isWellFormed ∧
      promoteComposedSymbolsAsDims symbolApply symbolSum [0, 2] =
        some ⟨1, 1, [.binary .add (.symbol 0) (.dim 0)]⟩ ∧
      (AffineApplyNormalizer.composeAndDispatch symbolApply (AffineApplyNormalizer.build symbolApply 0)
          0 0 [0, 2] (AffineApplyNormalizer.empty, [])).map
          (fun s => AffineApplyNormalizer.auxiliaryMap ⟨1, 1, [.binary .add (.symbol 0) (.dim 0)]⟩
            s.1 s.2) =
        some ⟨0, 1, [.symbol 1]⟩ ∧
      (⟨0, 1, [.symbol 1]⟩ : AffineMap).isWellFormed = false ∧
      AffineApplyNormalizer.new symbolApply symbolSum [0, 2] = none :=
  ⟨by decide, rfl, by decide, by decide, by decide, by decide, by decide⟩

end Mlir
