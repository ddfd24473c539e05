import MlirCore.IR.Traits
import MlirCore.Loops.Syntax

/-!
# The custom forms of `affine.apply` and `affine.if`

The printers write the map or condition, the operands as dim and symbol lists and, for `affine.if`,
the regions, with `else` only before a non-empty else region; the parsers read them back with
their count checks, and `affine.if`'s runs `ensureAffineTerminator`. Integer-set syntax is not in
this repository, so `affine.if`'s text starts after its condition; regions are one token with
their block count. Both verified forms round-trip, except that an empty then region comes back
with a terminator; `affine.apply`'s parser accepts maps with no or several results, which
`OneResult` rejects.
-/

namespace Mlir

/-! ## `affine.apply` -/

/-- An `affine.apply`: its `map` attribute, its operands, and whether each of its results has type
`index`. -/
structure AffineApplyOp where
  map : AffineMap
  operands : List Value
  resultsAreIndex : List Bool
  deriving Repr, DecidableEq

namespace AffineApplyOp

/-- `AffineApplyOp::build`: the operands, and one `index` result per map result. -/
def build (map : AffineMap) (operands : List Value) : AffineApplyOp :=
  ⟨map, operands, List.replicate map.results.length true⟩

/-- Modelled from the spec: the verifier's checks of an `affine.apply`, its `OneResult` trait and
then `AffineApplyOp::verify` on its result. -/
def verifyInvariants (ir : IR) (op : AffineApplyOp) : Except String Unit := do
  verifyOneResult "affine.apply" op.resultsAreIndex.length
  verifyAffineApply ir op.map op.operands (op.resultsAreIndex.headD false)

/-- `AffineApplyOp::print` after the operation name. -/
def print (op : AffineApplyOp) : List Token :=
  .affineMap op.map :: printDimAndSymbolList op.operands op.map.numDims

/-- `AffineApplyOp::parse` after the operation name: the operation and the tokens after it. -/
def parse (ir : IR) (tokens : List Token) : Except String (AffineApplyOp × List Token) := do
  let (mapAttr, tokens) ← OpAsmParser.parseAttribute tokens
  match mapAttr with
  | .affineMap map =>
    let ((operands, numDims), tokens) ← parseDimAndSymbolList ir tokens
    if map.numDims ≠ numDims ∨ numDims + map.numSymbols ≠ operands.length then
      .error "dimension or symbol index mismatch"
    else pure (⟨map, operands, List.replicate map.results.length true⟩, tokens)
  | _ => .error "invalid kind of attribute specified"

/-- The verifier passes exactly when the operation has one result and `verify` passes on it. -/
theorem verifyInvariants_eq_ok {ir : IR} {op : AffineApplyOp} :
    op.verifyInvariants ir = .ok () ↔
      op.resultsAreIndex.length = 1 ∧
        verifyAffineApply ir op.map op.operands (op.resultsAreIndex.headD false) = .ok () := by
  rw [verifyInvariants, except_bind_eq_ok, verifyOneResult, verifyCount_eq_ok, beq_iff_eq]

/-- A verified `affine.apply` is the one `build` makes from its map and operands. -/
theorem eq_build_of_verifyInvariants {ir : IR} {op : AffineApplyOp}
    (h : op.verifyInvariants ir = .ok ()) : op = build op.map op.operands := by
  obtain ⟨hone, hverify⟩ := verifyInvariants_eq_ok.mp h
  obtain ⟨-, -, hindex, -, hresults⟩ := verifyAffineApply_eq_ok.mp hverify
  obtain ⟨map, operands, resultsAreIndex⟩ := op
  obtain ⟨isIndex, rfl⟩ := List.length_eq_one.mp hone
  simp_all [build]

/-- The text of an `affine.apply` with one `index` operand per map input reads back as `build`
makes it, when the tokens after it do not open a symbol list. -/
theorem parse_print_eq_build {ir : IR} {op : AffineApplyOp} {rest : List Token}
    (hlength : op.operands.length = op.map.numInputs)
    (hindex : ∀ v ∈ op.operands, (ir.info v).isIndex) (hrest : rest.head? ≠ some .lSquare) :
    parse ir (op.print ++ rest) = .ok (build op.map op.operands, rest) := by
  have hdims : op.map.numDims ≤ op.operands.length := by
    rw [hlength, AffineMap.numInputs]; omega
  simp only [print, List.cons_append, parse, OpAsmParser.parseAttribute, pure, Except.pure, bind,
    Except.bind, parseDimAndSymbolList_printDimAndSymbolList hdims hindex hrest]
  simp [hlength, AffineMap.numInputs, build]

/-- Printing a verified `affine.apply` and parsing the text gives the operation back, when the
tokens after it do not open a symbol list. -/
theorem parse_print_of_verified (ir : IR) (op : AffineApplyOp)
    (hverify : op.verifyInvariants ir = .ok ()) {rest : List Token} (hrest : rest.head? ≠ some .lSquare) :
    parse ir (op.print ++ rest) = .ok (op, rest) := by
  obtain ⟨-, hverify'⟩ := verifyInvariants_eq_ok.mp hverify
  obtain ⟨hlength, hindex, -⟩ := verifyAffineApply_eq_ok.mp hverify'
  rw [parse_print_eq_build hlength hindex hrest, ← eq_build_of_verifyInvariants hverify]

/-- `affine.apply (d0)[s0] -> (d0 + s0)(%a)[%n]` over the two function arguments. -/
def sumOfArguments : AffineApplyOp :=
  build ⟨1, 1, [.binary .add (.dim 0) (.symbol 0)]⟩ [0, 1]

/-- `sumOfArguments` verifies, and prints and parses back. -/
theorem parse_print_of_verified_sumOfArguments :
    sumOfArguments.verifyInvariants functionArguments = .ok () ∧
      parse functionArguments (sumOfArguments.print ++ []) = .ok (sumOfArguments, []) :=
  ⟨rfl, parse_print_of_verified functionArguments sumOfArguments rfl (by decide)⟩

/-- What `parse` makes: the map read, operands of `index` type as many as its inputs, and one
`index` result per map result. -/
theorem parse_eq_ok {ir : IR} {tokens rest : List Token} {op : AffineApplyOp}
    (h : parse ir tokens = .ok (op, rest)) :
    op = build op.map op.operands ∧ op.operands.length = op.map.numInputs ∧
      ∀ v ∈ op.operands, (ir.info v).isIndex := by
  obtain ⟨⟨mapAttr, tokens₁⟩, -, h⟩ := except_bind_eq_ok_iff.mp h
  cases mapAttr with
  | affineMap map =>
    obtain ⟨⟨⟨operands, numDims⟩, tokens₂⟩, hlist, h⟩ := except_bind_eq_ok_iff.mp h
    dsimp only at h
    split_ifs at h with hcounts
    cases h
    simp only [not_or, not_not] at hcounts
    refine ⟨rfl, ?_, parseDimAndSymbolList_eq_ok hlist⟩
    dsimp only
    rw [AffineMap.numInputs]
    omega
  | integer value => cases h
  | other => cases h

/-- A parsed `affine.apply` has one `index` operand per input and one `index` result per map
result; it verifies exactly when its map has one result and its operands are valid. -/
theorem verifyInvariants_of_parse {ir : IR} {tokens rest : List Token} {op : AffineApplyOp}
    (h : parse ir tokens = .ok (op, rest)) :
    op.operands.length = op.map.numInputs ∧ (∀ v ∈ op.operands, (ir.info v).isIndex) ∧
      op.resultsAreIndex = List.replicate op.map.results.length true ∧
      (op.verifyInvariants ir = .ok () ↔ op.map.results.length = 1 ∧
        (∀ v ∈ op.operands.take op.map.numDims, isValidDim ir v) ∧
        ∀ v ∈ op.operands.drop op.map.numDims, isValidSymbol ir v) := by
  obtain ⟨hbuild, hlength, hindex⟩ := parse_eq_ok h
  have hresults : op.resultsAreIndex = List.replicate op.map.results.length true :=
    congrArg resultsAreIndex hbuild
  refine ⟨hlength, hindex, hresults, ?_⟩
  rw [verifyInvariants_eq_ok, verifyAffineApply_eq_ok, hresults, List.length_replicate]
  constructor
  · rintro ⟨-, -, -, -, hvalid, hone⟩
    exact ⟨hone, hvalid⟩
  · rintro ⟨hone, hvalid⟩
    exact ⟨hone, hlength, hindex, by rw [hone]; rfl, hvalid, hone⟩

/-- `affine.apply (d0)[s0] -> (d0, s0)(%a)[%n]` parses, and the verifier rejects its two
results. -/
theorem verifyInvariants_of_parse_twoResults :
    parse functionArguments ((build ⟨1, 1, [.dim 0, .symbol 0]⟩ [0, 1]).print ++ []) =
        .ok (build ⟨1, 1, [.dim 0, .symbol 0]⟩ [0, 1], []) ∧
      (build ⟨1, 1, [.dim 0, .symbol 0]⟩ [0, 1]).verifyInvariants functionArguments ≠ .ok () :=
  have hparse : parse functionArguments ((build ⟨1, 1, [.dim 0, .symbol 0]⟩ [0, 1]).print ++ []) =
      .ok (build ⟨1, 1, [.dim 0, .symbol 0]⟩ [0, 1], []) := rfl
  ⟨hparse, fun hverify => absurd ((verifyInvariants_of_parse hparse).2.2.2.mp hverify).1 (by decide)⟩

end AffineApplyOp

/-! ## `affine.if` -/

/-- Modelled from the spec: an integer set as the `affine.if` checks read it, by its dim and
symbol counts. Its constraints are read by no modelled function. -/
structure IntegerSet where
  numDims : Nat
  numSymbols : Nat
  deriving Repr, DecidableEq

/-- A region of an `affine.if` as its checks read it: empty, or its entry block's argument count,
whether that block is empty or ends with `affine.terminator`, and how many blocks follow. -/
inductive IfRegion where
  | empty
  | blocks (entryArguments : Nat) (hasAffineTerminator : Bool) (numOtherBlocks : Nat)
  deriving Repr, DecidableEq

/-- The number of blocks of a region. -/
def IfRegion.numBlocks : IfRegion → Nat
  | .empty => 0
  | .blocks _ _ numOtherBlocks => numOtherBlocks + 1

/-- An `affine.if`: its `condition` attribute, its operands, and its then and else regions. -/
structure AffineIfOp where
  condition : IntegerSet
  operands : List Value
  thenRegion : IfRegion
  elseRegion : IfRegion
  deriving Repr, DecidableEq

namespace AffineIfOp

/-- `AffineIfOp::build`: the condition, its operands, and two empty regions. -/
def build (condition : IntegerSet) (conditionOperands : List Value) : AffineIfOp :=
  ⟨condition, conditionOperands, .empty, .empty⟩

/-- The checks `AffineIfOp::verify` makes of each region that is not empty: one block, which is
empty or ends with `affine.terminator` and has no arguments. -/
def verifyRegion : IfRegion → Except String Unit
  | .empty => pure ()
  | .blocks entryArguments hasAffineTerminator numOtherBlocks => do
    if numOtherBlocks ≠ 0 then
      emitOpError "affine.if" "expects only one block per 'then' or 'else' regions"
    if !hasAffineTerminator then
      emitOpError "affine.if" "expects regions to end with 'affine.terminator'"
    if entryArguments ≠ 0 then
      emitOpError "affine.if" "requires that child entry blocks have no arguments"

/-- `AffineIfOp::verify`: as many operands as the condition's dims and symbols, valid dims and
symbols, and each region. The check that the condition exists cannot fail here. -/
def verify (ir : IR) (op : AffineIfOp) : Except String Unit := do
  if op.operands.length ≠ op.condition.numDims + op.condition.numSymbols then
    emitOpError "affine.if"
      "operand count and condition integer set dimension and symbol count must match"
  verifyDimAndSymbolIdentifiers ir "affine.if" op.operands op.condition.numDims
  verifyRegion op.thenRegion
  verifyRegion op.elseRegion

/-- `AffineIfOp::print` after the operation name and the condition: the operands, the then region,
and the else region after `else` when it has blocks. -/
def print (op : AffineIfOp) : List Token :=
  printDimAndSymbolList op.operands op.condition.numDims ++ .region op.thenRegion.numBlocks ::
    if op.elseRegion.numBlocks = 0 then [] else [.keyword "else", .region op.elseRegion.numBlocks]

/-- Modelled from the spec: the region `parseRegion` reads, after `ensureAffineTerminator`, from
`numBlocks` printed blocks; the terminator comes back when the entry block is the last. -/
def parsedRegion (numBlocks : Nat) : IfRegion := .blocks 0 (numBlocks ≤ 1) (numBlocks - 1)

/-- `AffineIfOp::parse` after the operation name and the condition: the operation and the tokens
after it. -/
def parse (ir : IR) (condition : IntegerSet) (tokens : List Token) :
    Except String (AffineIfOp × List Token) := do
  let ((operands, numDims), tokens) ← parseDimAndSymbolList ir tokens
  if condition.numDims ≠ numDims then
    .error "dim operand count and integer set dim count must match"
  else if numDims + condition.numSymbols ≠ operands.length then
    .error "symbol operand count and integer set symbol count must match"
  else do
    let (thenBlocks, tokens) ← OpAsmParser.parseRegion tokens
    match OpAsmParser.parseOptionalKeyword "else" tokens with
    | (true, tokens) => pure (⟨condition, operands, parsedRegion thenBlocks, .empty⟩, tokens)
    | (false, tokens) => do
      let (elseBlocks, tokens) ← OpAsmParser.parseRegion tokens
      pure (⟨condition, operands, parsedRegion thenBlocks, parsedRegion elseBlocks⟩, tokens)

/-- A region passes exactly when it is empty or is one block without arguments that is empty or
ends with `affine.terminator`. -/
theorem verifyRegion_eq_ok {region : IfRegion} :
    verifyRegion region = .ok () ↔ region = .empty ∨ region = .blocks 0 true 0 := by
  cases region with
  | empty => simp [verifyRegion, pure, Except.pure]
  | blocks entryArguments hasAffineTerminator numOtherBlocks =>
    simp only [verifyRegion, emitOpError_bind, ite_emitOpError_eq_ok, except_bind_eq_ok]
    cases hasAffineTerminator <;> simp [pure, Except.pure, and_comm]

/-- What `verify` checks, all at once. -/
theorem verify_eq_ok {ir : IR} {op : AffineIfOp} :
    op.verify ir = .ok () ↔
      op.operands.length = op.condition.numDims + op.condition.numSymbols ∧
        verifyDimAndSymbolIdentifiers ir "affine.if" op.operands op.condition.numDims = .ok () ∧
        (op.thenRegion = .empty ∨ op.thenRegion = .blocks 0 true 0) ∧
        (op.elseRegion = .empty ∨ op.elseRegion = .blocks 0 true 0) := by
  simp only [verify, emitOpError_bind, ite_emitOpError_eq_ok, except_bind_eq_ok, not_not,
    verifyRegion_eq_ok, pure, Except.pure, true_and]

/-- A region read from a printed region of at most one block is one terminated block. -/
theorem parsedRegion_of_le_one {numBlocks : Nat} (h : numBlocks ≤ 1) :
    parsedRegion numBlocks = .blocks 0 true 0 := by
  simp [parsedRegion, h, Nat.sub_eq_zero_of_le h]

/-- The text of an `affine.if` with `index` operands matching its condition reads back with the
regions as the parser rebuilds them, when the tokens after it do not start with `else`. -/
theorem parse_print_eq {ir : IR} {op : AffineIfOp} {rest : List Token}
    (hlength : op.operands.length = op.condition.numDims + op.condition.numSymbols)
    (hindex : ∀ v ∈ op.operands, (ir.info v).isIndex) (hrest : rest.head? ≠ some (.keyword "else")) :
    parse ir op.condition (op.print ++ rest) =
      .ok (⟨op.condition, op.operands, parsedRegion op.thenRegion.numBlocks,
        if op.elseRegion.numBlocks = 0 then .empty else parsedRegion op.elseRegion.numBlocks⟩,
        rest) := by
  have hdims : op.condition.numDims ≤ op.operands.length := by omega
  have hnoElse : OpAsmParser.parseOptionalKeyword "else" rest = (true, rest) := by
    match rest, hrest with
    | [], _ => rfl
    | .keyword w :: rest, hrest =>
      have hw : w ≠ "else" := fun hw => hrest (by rw [hw]; rfl)
      simp [OpAsmParser.parseOptionalKeyword, hw]
    | .ssaId _ :: _, _ | .integer _ :: _, _ | .affineMap _ :: _, _ | .string _ :: _, _
    | .equal :: _, _ | .comma :: _, _ | .lParen :: _, _ | .rParen :: _, _ | .lSquare :: _, _
    | .rSquare :: _, _ | .region _ :: _, _ => rfl
  have hlist := fun tail => @parseDimAndSymbolList_printDimAndSymbolList ir op.operands
    op.condition.numDims (.region op.thenRegion.numBlocks :: tail) hdims hindex (by simp)
  simp only [print, List.append_assoc, List.cons_append, parse, hlist, bind, Except.bind,
    ← hlength, ne_eq, not_true_eq_false, ite_false]
  by_cases helse : op.elseRegion.numBlocks = 0
  · simp [OpAsmParser.parseRegion, hnoElse, pure, Except.pure, helse]
  · simp [OpAsmParser.parseRegion, OpAsmParser.parseOptionalKeyword, pure, Except.pure, helse]

/-- A verified `affine.if` prints and parses back to itself, except that an empty then region
comes back with a terminator, when the tokens after it do not start with `else`. -/
theorem parse_print_of_verify (ir : IR) (op : AffineIfOp) (hverify : op.verify ir = .ok ())
    {rest : List Token} (hrest : rest.head? ≠ some (.keyword "else")) :
    parse ir op.condition (op.print ++ rest) = .ok ({ op with thenRegion := .blocks 0 true 0 }, rest) := by
  obtain ⟨hlength, hdims, hthen, helse⟩ := verify_eq_ok.mp hverify
  rw [parse_print_eq hlength
    (isIndex_of_verifyDimAndSymbolIdentifiers hdims) hrest,
    parsedRegion_of_le_one (by rcases hthen with h | h <;> simp [h, IfRegion.numBlocks])]
  rcases helse with h | h <;> simp [h, IfRegion.numBlocks, parsedRegion]

/-- `affine.if (d0)[s0] : (d0 - s0 >= 0)(%a)[%n]` with empty regions, as `build` makes it. -/
def builtOnArguments : AffineIfOp := build ⟨1, 1⟩ [0, 1]

/-- `builtOnArguments` verifies, and reads back with a then block. -/
theorem parse_print_of_verify_builtOnArguments :
    builtOnArguments.verify functionArguments = .ok () ∧
      parse functionArguments builtOnArguments.condition (builtOnArguments.print ++ []) =
        .ok (⟨⟨1, 1⟩, [0, 1], .blocks 0 true 0, .empty⟩, []) :=
  ⟨rfl, parse_print_of_verify functionArguments builtOnArguments rfl (by decide)⟩

end AffineIfOp

end Mlir
