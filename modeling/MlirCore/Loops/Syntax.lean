import MlirCore.Loops.BoundFolder

/-!
# The custom form of `affine.for`

`AffineForOp::print` writes `%i = <lower> to <upper> step <s> <region>`; `printBound` writes a
bound as an integer, a bare operand, or a map with its dim and symbol lists after `max`/`min`, and
`parse` reads them back. Text is a token list without the name and attribute dictionary; the
generic parser and printer, with their messages, are modelled from the spec. The parser rejects
only a negative step and `verify` checks neither step nor bound maps, so a verified loop of step
`-1` prints text the parser rejects, while well-formed maps and a step of at least `0` round-trip.
-/

namespace Mlir

/-- Modelled from the spec: a token of the custom form. `region` stands for a region's text,
with the number of blocks printed in it. -/
inductive Token where
  | ssaId (v : Value)
  | integer (value : Int)
  | keyword (word : String)
  | affineMap (map : AffineMap)
  | string (text : String)
  | equal
  | comma
  | lParen
  | rParen
  | lSquare
  | rSquare
  | region (numBlocks : Nat)
  deriving Repr, DecidableEq

/-- Modelled from the spec: the kinds of attribute `parseAttribute` tells apart here. -/
inductive Attribute where
  | affineMap (map : AffineMap)
  | integer (value : Int)
  | other
  deriving Repr, DecidableEq

/-- The tokens do not continue an operand list: they start with neither a comma nor an operand. -/
def Token.startsAfterOperands : List Token → Bool
  | .comma :: _ => false
  | .ssaId _ :: _ => false
  | _ => true

/-- The tokens can follow a bound: they continue neither an operand list nor a dim list with a
symbol list. -/
def Token.startsAfterBound (tokens : List Token) : Bool :=
  Token.startsAfterOperands tokens && tokens.head? != some .lSquare

namespace OpAsmParser

/-- Modelled from the spec: `parseToken`, the expected token or the message. -/
def parseToken (expected : Token) (message : String) : List Token → Except String (List Token)
  | t :: rest => if t = expected then pure rest else .error message
  | [] => .error message

/-- Modelled from the spec: `parseEqual`. -/
def parseEqual : List Token → Except String (List Token) :=
  parseToken .equal "expected '='"

/-- Modelled from the spec: `parseKeyword(keyword, msg)`. -/
def parseKeyword (word msg : String) : List Token → Except String (List Token) :=
  parseToken (.keyword word) ("expected '" ++ word ++ "'" ++ msg)

/-- Modelled from the spec: `parseOptionalKeyword`, which fails (`true`) when the keyword is
absent and then consumes nothing. -/
def parseOptionalKeyword (word : String) : List Token → Bool × List Token
  | .keyword w :: rest => if w = word then (false, rest) else (true, .keyword w :: rest)
  | tokens => (true, tokens)

/-- Modelled from the spec: the operands after the first of a comma-separated list. -/
def parseOperandListRest : List Token → Except String (List Value × List Token)
  | .comma :: .ssaId v :: rest => do
    let (vs, rest) ← parseOperandListRest rest
    pure (v :: vs, rest)
  | .comma :: _ => .error "expected SSA operand"
  | tokens => pure ([], tokens)

/-- Modelled from the spec: `parseOperandList` with no delimiter, a possibly empty
comma-separated list of operands. -/
def parseOperandList : List Token → Except String (List Value × List Token)
  | .ssaId v :: rest => do
    let (vs, rest) ← parseOperandListRest rest
    pure (v :: vs, rest)
  | tokens => pure ([], tokens)

/-- Modelled from the spec: `parseOperandList` between the delimiters `lhs` and `rhs`. -/
def parseDelimitedOperandList (lhs rhs : Token) (tokens : List Token) :
    Except String (List Value × List Token) := do
  let tokens ← parseToken lhs "expected operand list" tokens
  let (vs, tokens) ← parseOperandList tokens
  let tokens ← parseToken rhs "expected end of operand list" tokens
  pure (vs, tokens)

/-- Modelled from the spec: `parseOperandList` with `Delimiter::OptionalSquare`. -/
def parseOptionalSquareOperandList (tokens : List Token) :
    Except String (List Value × List Token) :=
  if tokens.head? = some .lSquare then parseDelimitedOperandList .lSquare .rSquare tokens
  else pure ([], tokens)

/-- Modelled from the spec: `resolveOperands` to `index` type. -/
def resolveOperands (ir : IR) (operands : List Value) : Except String Unit :=
  if operands.all fun v => (ir.info v).isIndex then pure ()
  else .error "use of value expects different type than prior uses"

/-- Modelled from the spec: `parseAttribute`. -/
def parseAttribute : List Token → Except String (Attribute × List Token)
  | .affineMap map :: rest => pure (.affineMap map, rest)
  | .integer value :: rest => pure (.integer value, rest)
  | .string _ :: rest => pure (.other, rest)
  | _ => .error "expected attribute value"

/-- Modelled from the spec: `parseRegionArgument`. -/
def parseRegionArgument : List Token → Except String (Value × List Token)
  | .ssaId v :: rest => pure (v, rest)
  | _ => .error "expected SSA operand"

/-- Modelled from the spec: `parseRegion`, the number of blocks of the region. -/
def parseRegion : List Token → Except String (Nat × List Token)
  | .region numBlocks :: rest => pure (numBlocks, rest)
  | _ => .error "expected '\x7b' to begin a region"

end OpAsmParser

namespace OpAsmPrinter

/-- Modelled from the spec: the operands after the first of a comma-separated list. -/
def printOperandsRest : List Value → List Token
  | [] => []
  | v :: vs => .comma :: .ssaId v :: printOperandsRest vs

/-- Modelled from the spec: `printOperands`, comma-separated. -/
def printOperands : List Value → List Token
  | [] => []
  | v :: vs => .ssaId v :: printOperandsRest vs

end OpAsmPrinter

/-- Modelled from the spec: `parseDimAndSymbolList`, the dims in parentheses, then the symbols in
optional square brackets, all resolved to `index`; the operands and the number of dims. -/
def parseDimAndSymbolList (ir : IR) (tokens : List Token) :
    Except String ((List Value × Nat) × List Token) := do
  let (dims, tokens) ← OpAsmParser.parseDelimitedOperandList .lParen .rParen tokens
  let (symbols, tokens) ← OpAsmParser.parseOptionalSquareOperandList tokens
  OpAsmParser.resolveOperands ir (dims ++ symbols)
  pure ((dims ++ symbols, dims.length), tokens)

/-- Modelled from the spec: `printDimAndSymbolList`, the dims in parentheses, then the symbols in
square brackets when there are any. -/
def printDimAndSymbolList (operands : List Value) (numDims : Nat) : List Token :=
  .lParen :: OpAsmPrinter.printOperands (operands.take numDims) ++ .rParen ::
    if operands.drop numDims = [] then []
    else .lSquare :: OpAsmPrinter.printOperands (operands.drop numDims) ++ [.rSquare]

/-- `parseBound` on a bound written as an operand list: a single operand, resolved to `index`,
under the symbol identity map. -/
def parseBoundOperand (ir : IR) (boundOpInfos : List Value) :
    Except String (AffineMap × List Value) :=
  if boundOpInfos.length > 1 then .error "expected only one loop bound operand"
  else do
    OpAsmParser.resolveOperands ir boundOpInfos
    pure (AffineMap.getSymbolIdentityMap, boundOpInfos)

/-- `parseBound` on the full form: dim and symbol lists matching the map's counts, and for several
results the `max` or `min` keyword (`failedToParsedMinMax` when absent). -/
def parseBoundMap (ir : IR) (isLower failedToParsedMinMax : Bool) (map : AffineMap)
    (tokens : List Token) : Except String ((AffineMap × List Value) × List Token) := do
  let ((operands, numDims), tokens) ← parseDimAndSymbolList ir tokens
  if map.numDims ≠ numDims then
    .error "dim operand count and integer set dim count must match"
  else if numDims + map.numSymbols ≠ operands.length then
    .error "symbol operand count and integer set symbol count must match"
  else if map.results.length > 1 && failedToParsedMinMax then
    .error (if isLower then "lower loop bound affine map with multiple results requires 'max' prefix"
      else "upper loop bound affine map with multiple results requires 'min' prefix")
  else pure ((map, operands), tokens)

/-- `parseBound`: the optional `max` (lower) or `min` (upper) keyword, then a bare operand, an
affine map with its dim and symbol lists, or an integer; the bound's map and operands. -/
def parseBound (ir : IR) (isLower : Bool) (tokens : List Token) :
    Except String ((AffineMap × List Value) × List Token) := do
  let (failedToParsedMinMax, tokens) :=
    OpAsmParser.parseOptionalKeyword (if isLower then "max" else "min") tokens
  let (boundOpInfos, tokens) ← OpAsmParser.parseOperandList tokens
  if boundOpInfos ≠ [] then (·, tokens) <$> parseBoundOperand ir boundOpInfos
  else do
    let (boundAttr, tokens) ← OpAsmParser.parseAttribute tokens
    match boundAttr with
    | .affineMap map => parseBoundMap ir isLower failedToParsedMinMax map tokens
    | .integer value => pure ((AffineMap.getConstantMap value, []), tokens)
    | .other => .error "expected valid affine map representation for loop bounds"

/-- `printBound`: an integer for an input-free constant map, the operand for a one-symbol symbol
map, else the map and its lists after `minMax` unless it has one result; `none` without operands. -/
def printBound (map : AffineMap) (boundOperands : List Value) (minMax : String) :
    Option (List Token) :=
  let full := .affineMap map :: printDimAndSymbolList boundOperands map.numDims
  match map.results with
  | [expr] =>
    match map.numDims, map.numSymbols, expr with
    | 0, 0, .constant value => some [.integer value]
    | 0, 1, .symbol _ => boundOperands.head?.map fun v => [.ssaId v]
    | _, _, _ => some full
  | _ => some (.keyword minMax :: full)

namespace AffineForOp

/-- The optional step of `AffineForOp::parse`: 1 when absent, and an error when negative. -/
def parseStep (tokens : List Token) : Except String (Int × List Token) :=
  match OpAsmParser.parseOptionalKeyword "step" tokens with
  | (true, tokens) => pure (1, tokens)
  | (false, tokens) => do
    let (stepAttr, tokens) ← OpAsmParser.parseAttribute tokens
    match stepAttr with
    | .integer step =>
      if step < 0 then .error "expected step to be representable as a positive signed integer"
      else pure (step, tokens)
    | _ => .error "invalid kind of attribute specified"

/-- Modelled from the spec: the body `parseRegion` gives `numBlocks` printed blocks after
`ensureAffineTerminator`, with the induction variable as the entry block's only argument. -/
def parsedBody (numBlocks : Nat) : LoopBody := ⟨max numBlocks 1, [true], numBlocks ≤ 1⟩

/-- `AffineForOp::parse` after the operation name: the loop and the tokens after it. -/
def parse (ir : IR) (tokens : List Token) : Except String (AffineForOp × List Token) := do
  let (_, tokens) ← OpAsmParser.parseRegionArgument tokens
  let tokens ← OpAsmParser.parseEqual tokens
  let ((lowerBoundMap, lowerBoundOperands), tokens) ← parseBound ir true tokens
  let tokens ← OpAsmParser.parseKeyword "to" " between bounds" tokens
  let ((upperBoundMap, upperBoundOperands), tokens) ← parseBound ir false tokens
  let (step, tokens) ← parseStep tokens
  let (numBlocks, tokens) ← OpAsmParser.parseRegion tokens
  pure (⟨lowerBoundOperands ++ upperBoundOperands, lowerBoundMap, upperBoundMap, step,
    parsedBody numBlocks⟩, tokens)

/-- `AffineForOp::print` after the operation name, `iv` the body's argument. `none` where
`printBound` reads a missing operand. -/
def print (iv : Value) (op : AffineForOp) : Option (List Token) := do
  let lower ← printBound op.lowerBoundMap op.getLowerBoundOperands "max"
  let upper ← printBound op.upperBoundMap op.getUpperBoundOperands "min"
  pure (.ssaId iv :: .equal :: lower ++ .keyword "to" :: upper ++
    (if op.step ≠ 1 then [.keyword "step", .integer op.step] else []) ++
      [.region op.body.numBlocks])

end AffineForOp

/-! ## Reading back what was printed -/

/-- A bind in `Except` succeeds exactly when its first step does and the rest does from there. -/
theorem except_bind_eq_ok_iff {ε α β : Type} {x : Except ε α} {f : α → Except ε β} {b : β} :
    x >>= f = .ok b ↔ ∃ a, x = .ok a ∧ f a = .ok b := by
  cases x <;> simp [bind, Except.bind]

namespace OpAsmParser

/-- Operands resolve exactly when they have `index` type. -/
theorem resolveOperands_eq_ok {ir : IR} {operands : List Value} :
    resolveOperands ir operands = .ok () ↔ ∀ v ∈ operands, (ir.info v).isIndex := by
  unfold resolveOperands
  split
  · rename_i hall
    exact ⟨fun _ => List.all_eq_true.mp hall, fun _ => rfl⟩
  · rename_i hall
    exact ⟨fun h => Except.noConfusion h, fun h => absurd (List.all_eq_true.mpr h) hall⟩

/-- Tokens that do not continue an operand list end the rest of one. -/
theorem parseOperandListRest_of_startsAfterOperands {rest : List Token}
    (hrest : Token.startsAfterOperands rest) : parseOperandListRest rest = .ok ([], rest) := by
  match rest, hrest with
  | [], _ => rfl
  | t :: rest, h => cases t <;> first | rfl | cases h

/-- Tokens that do not continue an operand list read as an empty one. -/
theorem parseOperandList_of_startsAfterOperands {rest : List Token}
    (hrest : Token.startsAfterOperands rest) : parseOperandList rest = .ok ([], rest) := by
  match rest, hrest with
  | [], _ => rfl
  | t :: rest, h => cases t <;> first | rfl | cases h

/-- The rest of a printed operand list reads back when the tokens after it do not go on with a
comma. -/
theorem parseOperandListRest_printOperandsRest (vs : List Value) {rest : List Token}
    (hrest : Token.startsAfterOperands rest) :
    parseOperandListRest (OpAsmPrinter.printOperandsRest vs ++ rest) = .ok (vs, rest) := by
  induction vs with
  | nil => exact parseOperandListRest_of_startsAfterOperands hrest
  | cons v vs ih =>
    simp only [OpAsmPrinter.printOperandsRest, List.cons_append, parseOperandListRest,
      List.append_eq, ih]
    rfl

/-- A printed operand list reads back when the tokens after it do not continue it. -/
theorem parseOperandList_printOperands (vs : List Value) {rest : List Token}
    (hrest : Token.startsAfterOperands rest) :
    parseOperandList (OpAsmPrinter.printOperands vs ++ rest) = .ok (vs, rest) := by
  cases vs with
  | nil => exact parseOperandList_of_startsAfterOperands hrest
  | cons v vs =>
    simp only [OpAsmPrinter.printOperands, List.cons_append, parseOperandList,
      parseOperandListRest_printOperandsRest vs hrest]
    rfl

/-- A printed operand list between delimiters reads back when the closing one ends it. -/
theorem parseDelimitedOperandList_printOperands {lhs rhs : Token} (vs : List Value)
    (rest : List Token) (hrhs : Token.startsAfterOperands [rhs]) :
    parseDelimitedOperandList lhs rhs (lhs :: (OpAsmPrinter.printOperands vs ++ rhs :: rest)) =
      .ok (vs, rest) := by
  have hafter : Token.startsAfterOperands (rhs :: rest) := by
    cases rhs <;> first | rfl | cases hrhs
  simp [parseDelimitedOperandList, parseToken, parseOperandList_printOperands vs hafter, bind,
    Except.bind, Functor.map, Except.map, pure, Except.pure]

end OpAsmParser

/-- Printed dim and symbol lists of `index` operands read back, with as many dims as printed, when
the tokens after them do not open a symbol list. -/
theorem parseDimAndSymbolList_printDimAndSymbolList {ir : IR} {operands : List Value}
    {numDims : Nat} {rest : List Token} (hdims : numDims ≤ operands.length)
    (hindex : ∀ v ∈ operands, (ir.info v).isIndex) (hrest : rest.head? ≠ some .lSquare) :
    parseDimAndSymbolList ir (printDimAndSymbolList operands numDims ++ rest) =
      .ok ((operands, numDims), rest) := by
  have hdimCount : (operands.take numDims).length = numDims := by simp [hdims]
  have hresolve := OpAsmParser.resolveOperands_eq_ok.mpr hindex
  by_cases hsymbols : operands.drop numDims = []
  · -- no symbol list
    have hsquare : OpAsmParser.parseOptionalSquareOperandList rest = .ok ([], rest) := if_neg hrest
    have htake : operands.take numDims = operands := by
      simpa [hsymbols] using List.take_append_drop numDims operands
    simp only [printDimAndSymbolList, if_pos hsymbols, List.cons_append, List.append_assoc,
      List.singleton_append, List.nil_append]
    rw [parseDimAndSymbolList,
      @OpAsmParser.parseDelimitedOperandList_printOperands .lParen .rParen _ rest rfl]
    have hlength : operands.length = numDims := by rw [← htake]; exact hdimCount
    simp [hsquare, hresolve, htake, hlength, bind, Except.bind, pure, Except.pure]
  · -- the symbols in square brackets
    have hsquare : OpAsmParser.parseOptionalSquareOperandList
        (.lSquare :: (OpAsmPrinter.printOperands (operands.drop numDims) ++ .rSquare :: rest)) =
        .ok (operands.drop numDims, rest) :=
      (if_pos rfl).trans (OpAsmParser.parseDelimitedOperandList_printOperands _ _ rfl)
    simp only [printDimAndSymbolList, if_neg hsymbols, List.cons_append, List.append_assoc,
      List.singleton_append, List.nil_append]
    rw [parseDimAndSymbolList,
      @OpAsmParser.parseDelimitedOperandList_printOperands .lParen .rParen _ _ rfl]
    simp [hsquare, hresolve, hdimCount, bind, Except.bind, pure, Except.pure]

/-- The full form of a bound reads back: dim and symbol lists as long as the map's inputs give the
map's operands, and a map with several results had its keyword. -/
theorem parseBoundMap_printDimAndSymbolList {ir : IR} {isLower failedToParsedMinMax : Bool}
    {map : AffineMap} {operands : List Value} {rest : List Token}
    (hlength : operands.length = map.numInputs) (hindex : ∀ v ∈ operands, (ir.info v).isIndex)
    (hrest : rest.head? ≠ some .lSquare)
    (hkeyword : failedToParsedMinMax = true → map.results.length ≤ 1) :
    parseBoundMap ir isLower failedToParsedMinMax map
        (printDimAndSymbolList operands map.numDims ++ rest) = .ok ((map, operands), rest) := by
  have hdims : map.numDims ≤ operands.length := by rw [hlength, AffineMap.numInputs]; omega
  have hminMax : (decide (map.results.length > 1) && failedToParsedMinMax) = false := by
    cases failedToParsedMinMax with
    | false => exact Bool.and_false _
    | true => simpa using hkeyword rfl
  rw [parseBoundMap, parseDimAndSymbolList_printDimAndSymbolList hdims hindex hrest]
  simp [hlength, AffineMap.numInputs, hminMax, bind, Except.bind, pure, Except.pure]

/-- A bound written as one operand of `index` type reads back under the symbol identity map. -/
theorem parseBound_ssaId {ir : IR} {isLower : Bool} {v : Value} {rest : List Token}
    (hindex : (ir.info v).isIndex) (hrest : Token.startsAfterOperands rest) :
    parseBound ir isLower (.ssaId v :: rest) =
      .ok ((AffineMap.getSymbolIdentityMap, [v]), rest) := by
  simp [parseBound, OpAsmParser.parseOptionalKeyword, OpAsmParser.parseOperandList,
    OpAsmParser.parseOperandListRest_of_startsAfterOperands hrest, parseBoundOperand,
    OpAsmParser.resolveOperands, hindex, bind, Except.bind, pure, Except.pure, Functor.map,
    Except.map]

/-- The full form of a bound with a map of one result reads back without a keyword. -/
theorem parseBound_affineMap {ir : IR} {isLower : Bool} {map : AffineMap}
    {operands : List Value} {rest : List Token} (hone : map.results.length ≤ 1)
    (hlength : operands.length = map.numInputs) (hindex : ∀ v ∈ operands, (ir.info v).isIndex)
    (hrest : rest.head? ≠ some .lSquare) :
    parseBound ir isLower (.affineMap map :: (printDimAndSymbolList operands map.numDims ++ rest)) =
      .ok ((map, operands), rest) := by
  simp only [parseBound, OpAsmParser.parseOptionalKeyword, OpAsmParser.parseOperandList]
  exact parseBoundMap_printDimAndSymbolList hlength hindex hrest fun _ => hone

/-- The full form of a bound reads back after its keyword. -/
theorem parseBound_keyword_affineMap {ir : IR} {isLower : Bool} {map : AffineMap}
    {operands : List Value} {rest : List Token}
    (hlength : operands.length = map.numInputs) (hindex : ∀ v ∈ operands, (ir.info v).isIndex)
    (hrest : rest.head? ≠ some .lSquare) :
    parseBound ir isLower (.keyword (if isLower then "max" else "min") :: .affineMap map ::
        (printDimAndSymbolList operands map.numDims ++ rest)) = .ok ((map, operands), rest) := by
  simp only [parseBound, OpAsmParser.parseOptionalKeyword, if_true, OpAsmParser.parseOperandList]
  exact parseBoundMap_printDimAndSymbolList hlength hindex hrest fun h => Bool.noConfusion h

/-- A bound printed from a well-formed map with as many `index` operands as inputs reads back as
that map and those operands. -/
theorem parseBound_printBound {ir : IR} {isLower : Bool} {map : AffineMap}
    {operands : List Value} {rest : List Token} (hwf : map.isWellFormed)
    (hlength : operands.length = map.numInputs) (hindex : ∀ v ∈ operands, (ir.info v).isIndex)
    (hrest : Token.startsAfterBound rest) :
    (printBound map operands (if isLower then "max" else "min")).map
      (fun tokens => parseBound ir isLower (tokens ++ rest)) = some (.ok ((map, operands), rest)) := by
  obtain ⟨hafter, hsquare⟩ : Token.startsAfterOperands rest ∧ rest.head? ≠ some .lSquare := by
    simpa [Token.startsAfterBound] using hrest
  unfold printBound
  split
  · split
    · -- a constant map with no inputs: a bare integer
      rename_i value hdims hsymbols hresults
      obtain ⟨numDims, numSymbols, results⟩ := map
      dsimp only at hdims hsymbols hresults
      subst hdims hsymbols hresults
      rw [List.length_eq_zero.mp hlength]
      rfl
    · -- a symbol of a map over one symbol: a bare operand
      rename_i position hdims hsymbols hresults
      obtain ⟨numDims, numSymbols, results⟩ := map
      dsimp only at hdims hsymbols hresults
      subst hdims hsymbols hresults
      obtain ⟨v, rfl⟩ := List.length_eq_one.mp hlength
      have hposition : position = 0 := by
        simpa [AffineMap.isWellFormed, AffineExpr.isValidIn] using hwf
      subst hposition
      simp only [List.head?_cons, Option.map_some', List.singleton_append]
      rw [parseBound_ssaId (hindex v (List.mem_singleton_self v)) hafter]
      rfl
    · -- any other map of one result: the full form without a keyword
      rename_i hresults
      simp only [Option.map_some', List.cons_append]
      rw [parseBound_affineMap (by rw [hresults]; rfl) hlength hindex hsquare]
  · -- a map of no or several results: the keyword and the full form
    simp only [Option.map_some', List.cons_append]
    rw [parseBound_keyword_affineMap hlength hindex hsquare]

/-- The parsed dim and symbol lists are operands of `index` type. -/
theorem parseDimAndSymbolList_eq_ok {ir : IR} {tokens rest : List Token} {operands : List Value}
    {numDims : Nat} (h : parseDimAndSymbolList ir tokens = .ok ((operands, numDims), rest)) :
    ∀ v ∈ operands, (ir.info v).isIndex := by
  obtain ⟨⟨dims, tokens₁⟩, -, h⟩ := except_bind_eq_ok_iff.mp h
  obtain ⟨⟨symbols, tokens₂⟩, -, h⟩ := except_bind_eq_ok_iff.mp h
  obtain ⟨⟨⟩, hresolve, h⟩ := except_bind_eq_ok_iff.mp h
  cases h
  exact OpAsmParser.resolveOperands_eq_ok.mp hresolve

/-- A bound written as an operand list is one operand of `index` type under the symbol identity
map. -/
theorem parseBoundOperand_eq_ok {ir : IR} {boundOpInfos operands : List Value} {map : AffineMap}
    (h : parseBoundOperand ir boundOpInfos = .ok (map, operands)) :
    map = AffineMap.getSymbolIdentityMap ∧ operands = boundOpInfos ∧ boundOpInfos.length ≤ 1 ∧
      ∀ v ∈ operands, (ir.info v).isIndex := by
  unfold parseBoundOperand at h
  split at h
  · cases h
  · obtain ⟨⟨⟩, hresolve, h⟩ := except_bind_eq_ok_iff.mp h
    cases h
    exact ⟨rfl, rfl, by omega, OpAsmParser.resolveOperands_eq_ok.mp hresolve⟩

/-- A bound's full form keeps its map, with operands of `index` type as many as its inputs. -/
theorem parseBoundMap_eq_ok {ir : IR} {isLower failedToParsedMinMax : Bool} {map map' : AffineMap}
    {tokens rest : List Token} {operands : List Value}
    (h : parseBoundMap ir isLower failedToParsedMinMax map tokens = .ok ((map', operands), rest)) :
    map' = map ∧ operands.length = map.numInputs ∧ ∀ v ∈ operands, (ir.info v).isIndex := by
  obtain ⟨⟨⟨operands', numDims⟩, tokens'⟩, hlist, h⟩ := except_bind_eq_ok_iff.mp h
  dsimp only at h
  split_ifs at h with hdims hsymbols
  cases h
  exact ⟨rfl, by rw [AffineMap.numInputs]; omega, parseDimAndSymbolList_eq_ok hlist⟩

/-- Every parsed bound has operands of `index` type as many as its map's inputs. -/
theorem parseBound_eq_ok {ir : IR} {isLower : Bool} {tokens rest : List Token} {map : AffineMap}
    {operands : List Value} (h : parseBound ir isLower tokens = .ok ((map, operands), rest)) :
    operands.length = map.numInputs ∧ ∀ v ∈ operands, (ir.info v).isIndex := by
  obtain ⟨⟨boundOpInfos, tokens₁⟩, -, h⟩ := except_bind_eq_ok_iff.mp h
  dsimp only at h
  split at h
  · -- a bare operand
    rename_i hne
    obtain ⟨bound, hbound, h⟩ : ∃ bound, parseBoundOperand ir boundOpInfos = .ok bound ∧
        (bound, tokens₁) = ((map, operands), rest) := by
      cases hresult : parseBoundOperand ir boundOpInfos <;> simp_all [Functor.map, Except.map]
    cases h
    obtain ⟨rfl, rfl, hone, hindex⟩ := parseBoundOperand_eq_ok hbound
    refine ⟨?_, hindex⟩
    have : operands.length ≠ 0 := fun hzero => hne (List.length_eq_zero.mp hzero)
    simp only [AffineMap.getSymbolIdentityMap, AffineMap.numInputs]
    omega
  · obtain ⟨⟨boundAttr, tokens₂⟩, -, h⟩ := except_bind_eq_ok_iff.mp h
    dsimp only at h
    cases boundAttr with
    | affineMap map' =>
      obtain ⟨rfl, hlength, hindex⟩ := parseBoundMap_eq_ok h
      exact ⟨hlength, hindex⟩
    | integer value =>
      cases h
      exact ⟨rfl, fun _ => nofun⟩
    | other => cases h

namespace AffineForOp

/-- A parsed step is never negative. -/
theorem parseStep_nonneg {tokens rest : List Token} {step : Int}
    (h : parseStep tokens = .ok (step, rest)) : 0 ≤ step := by
  unfold parseStep at h
  split at h
  · cases h
    decide
  · obtain ⟨⟨stepAttr, tokens'⟩, -, h⟩ := except_bind_eq_ok_iff.mp h
    dsimp only at h
    split at h
    · split at h
      · cases h
      · cases h
        omega
    · cases h

/-- Every loop the parser reads has a step that is not negative, as many operands as its bound
maps have inputs, and operands of `index` type. -/
theorem parse_eq_ok {ir : IR} {tokens rest : List Token} {op : AffineForOp}
    (h : parse ir tokens = .ok (op, rest)) :
    0 ≤ op.step ∧ op.OperandCountMatches ∧ ∀ v ∈ op.operands, (ir.info v).isIndex := by
  obtain ⟨⟨_, tokens₁⟩, -, h⟩ := except_bind_eq_ok_iff.mp h
  obtain ⟨tokens₂, -, h⟩ := except_bind_eq_ok_iff.mp h
  obtain ⟨⟨⟨lowerBoundMap, lowerBoundOperands⟩, tokens₃⟩, hlower, h⟩ := except_bind_eq_ok_iff.mp h
  obtain ⟨tokens₄, -, h⟩ := except_bind_eq_ok_iff.mp h
  obtain ⟨⟨⟨upperBoundMap, upperBoundOperands⟩, tokens₅⟩, hupper, h⟩ := except_bind_eq_ok_iff.mp h
  obtain ⟨⟨step, tokens₆⟩, hstep, h⟩ := except_bind_eq_ok_iff.mp h
  obtain ⟨⟨numBlocks, tokens₇⟩, -, h⟩ := except_bind_eq_ok_iff.mp h
  cases h
  obtain ⟨hlowerLength, hlowerIndex⟩ := parseBound_eq_ok hlower
  obtain ⟨hupperLength, hupperIndex⟩ := parseBound_eq_ok hupper
  refine ⟨parseStep_nonneg hstep, ?_, fun v hv => ?_⟩
  · simp [OperandCountMatches, hlowerLength, hupperLength]
  · rcases List.mem_append.mp hv with hv | hv
    · exact hlowerIndex v hv
    · exact hupperIndex v hv

/-- `%i = 0 to 10 step 0 {}`. -/
def zeroStepText : List Token :=
  [.ssaId 0, .equal, .integer 0, .keyword "to", .integer 10, .keyword "step", .integer 0, .region 1]

/-- The loop of `zeroStepText`: bounds 0 and 10, step 0. -/
def zeroStepLoop : AffineForOp :=
  ⟨[], AffineMap.getConstantMap 0, AffineMap.getConstantMap 10, 0, ⟨1, [true], true⟩⟩

/-- `%i = max () -> () () to 10 {}`: a lower bound map with no result. -/
def resultlessBoundText : List Token :=
  [.ssaId 0, .equal, .keyword "max", .affineMap ⟨0, 0, []⟩, .lParen, .rParen, .keyword "to",
    .integer 10, .region 1]

/-- The loop of `resultlessBoundText`. -/
def resultlessBoundLoop : AffineForOp :=
  ⟨[], ⟨0, 0, []⟩, AffineMap.getConstantMap 10, 1, ⟨1, [true], true⟩⟩

/-- In any function, the parser and the verifier accept a loop of step 0, which `build` refuses,
and a loop whose lower bound map has no result, on which the bound folder asserts. -/
theorem parse_verify_accept_zero_step_and_resultless_bound (ir : IR) :
    parse ir zeroStepText = .ok (zeroStepLoop, []) ∧ zeroStepLoop.verify ir = .ok () ∧
      zeroStepLoop.step = 0 ∧
      build [] zeroStepLoop.lowerBoundMap [] zeroStepLoop.upperBoundMap zeroStepLoop.step = none ∧
    parse ir resultlessBoundText = .ok (resultlessBoundLoop, []) ∧
      resultlessBoundLoop.verify ir = .ok () ∧ resultlessBoundLoop.lowerBoundMap.results = [] ∧
      AffineForLoopBoundFolder.matchAndRewrite (fun _ => none) resultlessBoundLoop = none :=
  ⟨rfl, rfl, rfl, rfl, rfl, rfl, rfl, rfl⟩

/-- A step that is not negative reads back as printed, before the region. -/
theorem parseStep_print {step : Int} (hstep : 0 ≤ step) (numBlocks : Nat) (rest : List Token) :
    parseStep ((if step ≠ 1 then [.keyword "step", .integer step] else []) ++
      .region numBlocks :: rest) = .ok (step, .region numBlocks :: rest) := by
  by_cases hone : step = 1
  · subst hone
    rfl
  · have hnonneg : ¬step < 0 := by omega
    simp [hone, parseStep, OpAsmParser.parseOptionalKeyword, OpAsmParser.parseAttribute,
      hnonneg, bind, Except.bind, pure, Except.pure]

/-- The step and the region can follow a bound. -/
theorem startsAfterBound_step (step : Int) (numBlocks : Nat) (rest : List Token) :
    Token.startsAfterBound ((if step ≠ 1 then [.keyword "step", .integer step] else []) ++
      .region numBlocks :: rest) := by
  split <;> rfl

/-- Printing a verified loop whose bound maps are well-formed and whose step is not negative,
then parsing the text, gives the loop back. -/
theorem parse_print (ir : IR) (iv : Value) (op : AffineForOp) (hverify : op.verify ir = .ok ())
    (hlower : op.lowerBoundMap.isWellFormed) (hupper : op.upperBoundMap.isWellFormed)
    (hstep : 0 ≤ op.step) :
    (op.print iv).map (parse ir) = some (.ok (op, [])) := by
  obtain ⟨hbody, hcount, hlowerIds, hupperIds⟩ := verify_eq_ok.mp hverify
  have hlowerLength : op.getLowerBoundOperands.length = op.lowerBoundMap.numInputs := by
    simp [getLowerBoundOperands, hcount]
  have hupperLength : op.getUpperBoundOperands.length = op.upperBoundMap.numInputs := by
    simp [getUpperBoundOperands, hcount]
  let stepTokens : List Token := if op.step ≠ 1 then [.keyword "step", .integer op.step] else []
  obtain ⟨upperTokens, hupperPrint, hupperParse⟩ := Option.map_eq_some'.mp
    (@parseBound_printBound ir false _ _ (stepTokens ++ [.region op.body.numBlocks]) hupper
      hupperLength (isIndex_of_verifyDimAndSymbolIdentifiers hupperIds)
      (startsAfterBound_step op.step op.body.numBlocks []))
  obtain ⟨lowerTokens, hlowerPrint, hlowerParse⟩ := Option.map_eq_some'.mp
    (@parseBound_printBound ir true _ _
      (.keyword "to" :: (upperTokens ++ (stepTokens ++ [.region op.body.numBlocks]))) hlower
      hlowerLength (isIndex_of_verifyDimAndSymbolIdentifiers hlowerIds) rfl)
  have hprint : op.print iv = some (.ssaId iv :: .equal :: (lowerTokens ++ .keyword "to" ::
      (upperTokens ++ (stepTokens ++ [.region op.body.numBlocks])))) := by
    rw [if_pos rfl] at hlowerPrint
    rw [if_neg Bool.false_ne_true] at hupperPrint
    simp [print, hlowerPrint, hupperPrint, stepTokens]
  have hstepParse : parseStep (stepTokens ++ [.region op.body.numBlocks]) =
      .ok (op.step, [.region op.body.numBlocks]) := parseStep_print hstep _ []
  have hsplit : op.getLowerBoundOperands ++ op.getUpperBoundOperands = op.operands :=
    List.take_append_drop _ _
  rw [hprint, Option.map_some']
  simp [parse, OpAsmParser.parseRegionArgument, OpAsmParser.parseEqual, OpAsmParser.parseToken,
    OpAsmParser.parseKeyword, OpAsmParser.parseRegion, hlowerParse, hupperParse, hstepParse, bind,
    Except.bind, pure, Except.pure, hsplit]
  obtain ⟨operands, lowerBoundMap, upperBoundMap, step, body⟩ := op
  subst hbody
  rfl

end AffineForOp

/-- Printing then parsing gives back well-formed bounds with `index` operands and verified loops
with well-formed maps and a step of at least `0`; every parsed loop has such a step and operands. -/
theorem print_parse_roundtrip :
    (∀ (ir : IR) (isLower : Bool) (map : AffineMap) (operands : List Value) (rest : List Token),
      map.isWellFormed → operands.length = map.numInputs →
      (∀ v ∈ operands, (ir.info v).isIndex) → Token.startsAfterBound rest →
      (printBound map operands (if isLower then "max" else "min")).map
        (fun tokens => parseBound ir isLower (tokens ++ rest)) =
          some (.ok ((map, operands), rest))) ∧
    (∀ (ir : IR) (iv : Value) (op : AffineForOp), op.verify ir = .ok () →
      op.lowerBoundMap.isWellFormed → op.upperBoundMap.isWellFormed → 0 ≤ op.step →
      (op.print iv).map (AffineForOp.parse ir) = some (.ok (op, []))) ∧
    ∀ (ir : IR) (tokens rest : List Token) (op : AffineForOp),
      AffineForOp.parse ir tokens = .ok (op, rest) →
      0 ≤ op.step ∧ op.OperandCountMatches ∧ ∀ v ∈ op.operands, (ir.info v).isIndex :=
  ⟨fun _ _ _ _ _ hwf hlength hindex hrest => parseBound_printBound hwf hlength hindex hrest,
    AffineForOp.parse_print, fun _ _ _ _ => AffineForOp.parse_eq_ok⟩

/-- Two function arguments of `index` type, `%a` (value 0) and `%n` (value 1). -/
def functionArguments : IR := ⟨[⟨true, true, none⟩, ⟨true, true, none⟩], by decide⟩

/-- `affine.for %i = max (d0)[s0] -> (d0, s0)(%a)[%n] to %n step 2`. -/
def maxBoundLoop : AffineForOp :=
  ⟨[0, 1, 1], ⟨1, 1, [.dim 0, .symbol 0]⟩, AffineMap.getSymbolIdentityMap, 2, ⟨1, [true], true⟩⟩

/-- `maxBoundLoop` and its lower bound print and parse back. -/
theorem print_parse_roundtrip_maxBoundLoop :
    maxBoundLoop.verify functionArguments = .ok () ∧ maxBoundLoop.lowerBoundMap.isWellFormed ∧
      maxBoundLoop.upperBoundMap.isWellFormed ∧ 0 ≤ maxBoundLoop.step ∧
      (maxBoundLoop.print 2).map (AffineForOp.parse functionArguments) =
        some (.ok (maxBoundLoop, [])) ∧
      (printBound maxBoundLoop.lowerBoundMap [0, 1] "max").map
          (fun tokens => parseBound functionArguments true (tokens ++ [.keyword "to"])) =
        some (.ok ((maxBoundLoop.lowerBoundMap, [0, 1]), [.keyword "to"])) :=
  ⟨rfl, rfl, rfl, by decide,
    print_parse_roundtrip.2.1 functionArguments 2 maxBoundLoop rfl rfl rfl (by decide),
    print_parse_roundtrip.1 functionArguments true maxBoundLoop.lowerBoundMap [0, 1]
      [.keyword "to"] rfl rfl (by decide) rfl⟩

/-- `affine.for %i = 0 to 10 step -1`. -/
def negativeStepLoop : AffineForOp :=
  ⟨[], AffineMap.getConstantMap 0, AffineMap.getConstantMap 10, -1, ⟨1, [true], true⟩⟩

/-- `affine.for %i = ()[s0] -> (s1)(%a) to 10`, whose lower bound map uses a symbol it does not
have. -/
def illFormedBoundLoop : AffineForOp :=
  ⟨[0], ⟨0, 1, [.symbol 1]⟩, AffineMap.getConstantMap 10, 1, ⟨1, [true], true⟩⟩

/-- A verified loop of step -1 is printed, and its text is then rejected. A verified loop whose
lower bound map is the ill-formed `()[s0] -> (s1)` reads back with the map `()[s0] -> (s0)`. -/
theorem print_parse_loses_negative_step_and_ill_formed_bound :
    (∀ (ir : IR) (iv : Value), negativeStepLoop.verify ir = .ok () ∧
      (negativeStepLoop.print iv).map (AffineForOp.parse ir) =
        some (.error "expected step to be representable as a positive signed integer")) ∧
    illFormedBoundLoop.verify functionArguments = .ok () ∧
      (illFormedBoundLoop.print 2).map (AffineForOp.parse functionArguments) =
        some (.ok ({ illFormedBoundLoop with lowerBoundMap := AffineMap.getSymbolIdentityMap }, [])) :=
  ⟨fun _ _ => ⟨rfl, rfl⟩, rfl, rfl⟩

end Mlir
