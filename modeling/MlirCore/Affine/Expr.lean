import Mathlib.Data.List.GetD

/-!
# Affine expressions

The expression trees of the affine sublanguage: positional dims and symbols, integer constants,
and `+`, `*`, `mod`, `floordiv` and `ceildiv`; a map's operand list gives positions their values.
`replaceDimsAndSymbols` substitutes positions by expressions from a list that may hold null
entries, written `none`, as `AffineMap::compose` and `canonicalizeMapAndOperands` build them. A
substitution that reaches a null entry returns `none`. The builders' simplifications live outside
this repository: a substitution rebuilds the tree unchanged.
-/

namespace Mlir

/-- The operators of `AffineBinaryOpExpr`. -/
inductive AffineBinaryKind where
  | add
  | mul
  | mod
  | floorDiv
  | ceilDiv
  deriving Repr, DecidableEq

/-- An affine expression; dims and symbols are referenced by position only. -/
inductive AffineExpr where
  | dim (position : Nat)
  | symbol (position : Nat)
  | constant (value : Int)
  | binary (kind : AffineBinaryKind) (lhs rhs : AffineExpr)
  deriving Repr, DecidableEq

namespace AffineBinaryKind

/-- Integer meaning of each operator; `mod` is the non-negative remainder, and the two
divisions round down and up. -/
def apply : AffineBinaryKind → Int → Int → Int
  | add, a, b => a + b
  | mul, a, b => a * b
  | mod, a, b => a % b
  | floorDiv, a, b => a.fdiv b
  | ceilDiv, a, b => -((-a).fdiv b)

/-- The operators whose right operand is a divisor. -/
def isDivision : AffineBinaryKind → Bool
  | add | mul => false
  | mod | floorDiv | ceilDiv => true

end AffineBinaryKind

namespace AffineExpr

/-- Evaluate with dim `i` bound to `dims i` and symbol `j` to `symbols j`. -/
def eval (dims symbols : Nat → Int) : AffineExpr → Int
  | dim i => dims i
  | symbol j => symbols j
  | constant c => c
  | binary k lhs rhs => k.apply (lhs.eval dims symbols) (rhs.eval dims symbols)

/-- Every `floordiv`, `ceildiv` and `mod` divisor evaluates to a positive integer. -/
def divisorsPositive (dims symbols : Nat → Int) : AffineExpr → Bool
  | dim _ | symbol _ | constant _ => true
  | binary k lhs rhs =>
    lhs.divisorsPositive dims symbols && rhs.divisorsPositive dims symbols &&
      (!k.isDivision || 0 < rhs.eval dims symbols)

/-- Whether a walk over the expression meets the dim expression at `position`. -/
def usesDim (position : Nat) : AffineExpr → Bool
  | dim i => i == position
  | symbol _ | constant _ => false
  | binary _ lhs rhs => lhs.usesDim position || rhs.usesDim position

/-- Whether a walk over the expression meets the symbol expression at `position`. -/
def usesSymbol (position : Nat) : AffineExpr → Bool
  | symbol j => j == position
  | dim _ | constant _ => false
  | binary _ lhs rhs => lhs.usesSymbol position || rhs.usesSymbol position

/-- Every referenced dim is below `numDims` and every referenced symbol below `numSymbols`. -/
def isValidIn (numDims numSymbols : Nat) : AffineExpr → Bool
  | dim i => i < numDims
  | symbol j => j < numSymbols
  | constant _ => true
  | binary _ lhs rhs => lhs.isValidIn numDims numSymbols && rhs.isValidIn numDims numSymbols

/-- `AffineExpr::replaceDimsAndSymbols`: a position inside a replacement list takes its
entry, one past its end stays as it is, and a null entry (`none`) makes the result null. -/
def replaceDimsAndSymbols (dimReplacements symReplacements : List (Option AffineExpr)) :
    AffineExpr → Option AffineExpr
  | dim i => dimReplacements.getD i (some (dim i))
  | symbol j => symReplacements.getD j (some (symbol j))
  | constant c => some (constant c)
  | binary k lhs rhs => do
    let lhs ← lhs.replaceDimsAndSymbols dimReplacements symReplacements
    let rhs ← rhs.replaceDimsAndSymbols dimReplacements symReplacements
    pure (binary k lhs rhs)

/-- The value a replacement list gives a position: its entry's value, or the position's own past
the list's end; a null entry, which no successful substitution reaches, counts as `0`. -/
def replacementValue (dims symbols : Nat → Int) (replacements : List (Option AffineExpr))
    (self : AffineExpr) (position : Nat) : Int :=
  ((replacements.getD position (some self)).map (eval dims symbols)).getD 0

@[simp] theorem replaceDimsAndSymbols_dim (dr sr : List (Option AffineExpr)) (i : Nat) :
    (dim i).replaceDimsAndSymbols dr sr = dr.getD i (some (dim i)) := rfl

@[simp] theorem replaceDimsAndSymbols_symbol (dr sr : List (Option AffineExpr)) (j : Nat) :
    (symbol j).replaceDimsAndSymbols dr sr = sr.getD j (some (symbol j)) := rfl

@[simp] theorem replaceDimsAndSymbols_constant (dr sr : List (Option AffineExpr)) (c : Int) :
    (constant c).replaceDimsAndSymbols dr sr = some (constant c) := rfl

/-- A binary node is replaced exactly when both operands are. -/
theorem replaceDimsAndSymbols_binary_eq_some {dr sr : List (Option AffineExpr)}
    {k : AffineBinaryKind} {lhs rhs e : AffineExpr} :
    (binary k lhs rhs).replaceDimsAndSymbols dr sr = some e ↔
      ∃ lhs' rhs', lhs.replaceDimsAndSymbols dr sr = some lhs' ∧
        rhs.replaceDimsAndSymbols dr sr = some rhs' ∧ e = binary k lhs' rhs' := by
  simp only [replaceDimsAndSymbols, Option.bind_eq_bind, Option.bind_eq_some, Option.pure_def,
    Option.some.injEq]
  constructor
  · rintro ⟨l, hl, r, hr, rfl⟩
    exact ⟨l, r, hl, hr, rfl⟩
  · rintro ⟨l, r, hl, hr, rfl⟩
    exact ⟨l, hl, r, hr, rfl⟩

/-- Evaluating a substitution evaluates the original under the substituted values. -/
theorem eval_replaceDimsAndSymbols {dr sr : List (Option AffineExpr)} {e e' : AffineExpr}
    (h : e.replaceDimsAndSymbols dr sr = some e') (dims symbols : Nat → Int) :
    e'.eval dims symbols =
      e.eval (fun i => replacementValue dims symbols dr (dim i) i)
        (fun j => replacementValue dims symbols sr (symbol j) j) := by
  induction e generalizing e' with
  | dim i =>
    rw [replaceDimsAndSymbols_dim] at h
    simp only [eval, replacementValue, h, Option.map_some', Option.getD_some]
  | symbol j =>
    rw [replaceDimsAndSymbols_symbol] at h
    simp only [eval, replacementValue, h, Option.map_some', Option.getD_some]
  | constant c => cases h; rfl
  | binary k lhs rhs ihl ihr =>
    obtain ⟨l, r, hl, hr, rfl⟩ := replaceDimsAndSymbols_binary_eq_some.mp h
    simp only [eval, ihl hl, ihr hr]

/-- A substitution succeeds when no used position has a null entry. -/
theorem replaceDimsAndSymbols_isSome {dr sr : List (Option AffineExpr)} {e : AffineExpr}
    (hd : ∀ i, e.usesDim i → dr.getD i (some (dim i)) ≠ none)
    (hs : ∀ j, e.usesSymbol j → sr.getD j (some (symbol j)) ≠ none) :
    (e.replaceDimsAndSymbols dr sr).isSome := by
  induction e with
  | dim i => simpa [Option.isSome_iff_ne_none, usesDim] using hd i
  | symbol j => simpa [Option.isSome_iff_ne_none, usesSymbol] using hs j
  | constant c => rfl
  | binary k lhs rhs ihl ihr =>
    obtain ⟨l, hl⟩ := Option.isSome_iff_exists.mp
      (ihl (fun i h => hd i (by simp [usesDim, h])) (fun j h => hs j (by simp [usesSymbol, h])))
    obtain ⟨r, hr⟩ := Option.isSome_iff_exists.mp
      (ihr (fun i h => hd i (by simp [usesDim, h])) (fun j h => hs j (by simp [usesSymbol, h])))
    simp [replaceDimsAndSymbols, hl, hr]

/-- A substitution whose used entries are the positions themselves leaves the tree as it is. -/
theorem replaceDimsAndSymbols_eq_self {dr sr : List (Option AffineExpr)} {e : AffineExpr}
    (hd : ∀ i, e.usesDim i → dr.getD i (some (dim i)) = some (dim i))
    (hs : ∀ j, e.usesSymbol j → sr.getD j (some (symbol j)) = some (symbol j)) :
    e.replaceDimsAndSymbols dr sr = some e := by
  induction e with
  | dim i => simpa [usesDim] using hd i
  | symbol j => simpa [usesSymbol] using hs j
  | constant c => rfl
  | binary k lhs rhs ihl ihr =>
    rw [replaceDimsAndSymbols_binary_eq_some]
    exact ⟨lhs, rhs, ihl (fun i h => hd i (by simp [usesDim, h]))
      (fun j h => hs j (by simp [usesSymbol, h])),
      ihr (fun i h => hd i (by simp [usesDim, h])) (fun j h => hs j (by simp [usesSymbol, h])), rfl⟩

/-- Where a substitution's dims come from: the entries of the positions it replaced. -/
theorem usesDim_replaceDimsAndSymbols {dr sr : List (Option AffineExpr)} {e e' : AffineExpr}
    (h : e.replaceDimsAndSymbols dr sr = some e') (k : Nat) :
    e'.usesDim k ↔
      (∃ i, e.usesDim i ∧ ∃ r, dr.getD i (some (dim i)) = some r ∧ r.usesDim k) ∨
        ∃ j, e.usesSymbol j ∧ ∃ r, sr.getD j (some (symbol j)) = some r ∧ r.usesDim k := by
  induction e generalizing e' with
  | dim i =>
    simp only [replaceDimsAndSymbols_dim, List.getD_eq_getElem?_getD] at h
    simp [usesDim, usesSymbol, h]
  | symbol j =>
    simp only [replaceDimsAndSymbols_symbol, List.getD_eq_getElem?_getD] at h
    simp [usesDim, usesSymbol, h]
  | constant c => cases h; simp [usesDim, usesSymbol]
  | binary k' lhs rhs ihl ihr =>
    obtain ⟨l, r, hl, hr, rfl⟩ := replaceDimsAndSymbols_binary_eq_some.mp h
    simp only [usesDim, usesSymbol, Bool.or_eq_true, ihl hl, ihr hr]
    constructor
    · rintro ((⟨i, hi, hr⟩ | ⟨j, hj, hr⟩) | (⟨i, hi, hr⟩ | ⟨j, hj, hr⟩))
      exacts [.inl ⟨i, .inl hi, hr⟩, .inr ⟨j, .inl hj, hr⟩, .inl ⟨i, .inr hi, hr⟩,
        .inr ⟨j, .inr hj, hr⟩]
    · rintro (⟨i, hi | hi, hr⟩ | ⟨j, hj | hj, hr⟩)
      exacts [.inl (.inl ⟨i, hi, hr⟩), .inr (.inl ⟨i, hi, hr⟩), .inl (.inr ⟨j, hj, hr⟩),
        .inr (.inr ⟨j, hj, hr⟩)]

/-- Where a substitution's symbols come from: the entries of the positions it replaced. -/
theorem usesSymbol_replaceDimsAndSymbols {dr sr : List (Option AffineExpr)} {e e' : AffineExpr}
    (h : e.replaceDimsAndSymbols dr sr = some e') (k : Nat) :
    e'.usesSymbol k ↔
      (∃ i, e.usesDim i ∧ ∃ r, dr.getD i (some (dim i)) = some r ∧ r.usesSymbol k) ∨
        ∃ j, e.usesSymbol j ∧ ∃ r, sr.getD j (some (symbol j)) = some r ∧ r.usesSymbol k := by
  induction e generalizing e' with
  | dim i =>
    simp only [replaceDimsAndSymbols_dim, List.getD_eq_getElem?_getD] at h
    simp [usesDim, usesSymbol, h]
  | symbol j =>
    simp only [replaceDimsAndSymbols_symbol, List.getD_eq_getElem?_getD] at h
    simp [usesDim, usesSymbol, h]
  | constant c => cases h; simp [usesDim, usesSymbol]
  | binary k' lhs rhs ihl ihr =>
    obtain ⟨l, r, hl, hr, rfl⟩ := replaceDimsAndSymbols_binary_eq_some.mp h
    simp only [usesDim, usesSymbol, Bool.or_eq_true, ihl hl, ihr hr]
    constructor
    · rintro ((⟨i, hi, hr⟩ | ⟨j, hj, hr⟩) | (⟨i, hi, hr⟩ | ⟨j, hj, hr⟩))
      exacts [.inl ⟨i, .inl hi, hr⟩, .inr ⟨j, .inl hj, hr⟩, .inl ⟨i, .inr hi, hr⟩,
        .inr ⟨j, .inr hj, hr⟩]
    · rintro (⟨i, hi | hi, hr⟩ | ⟨j, hj | hj, hr⟩)
      exacts [.inl (.inl ⟨i, hi, hr⟩), .inr (.inl ⟨i, hi, hr⟩), .inl (.inr ⟨j, hj, hr⟩),
        .inr (.inr ⟨j, hj, hr⟩)]

/-- Validity in a coordinate system bounds every used position. -/
theorem isValidIn_iff {numDims numSymbols : Nat} {e : AffineExpr} :
    e.isValidIn numDims numSymbols ↔
      (∀ i, e.usesDim i → i < numDims) ∧ ∀ j, e.usesSymbol j → j < numSymbols := by
  induction e with
  | dim i => simp [isValidIn, usesDim, usesSymbol]
  | symbol j => simp [isValidIn, usesDim, usesSymbol]
  | constant c => simp [isValidIn, usesDim, usesSymbol]
  | binary k lhs rhs ihl ihr =>
    simp only [isValidIn, usesDim, usesSymbol, Bool.and_eq_true, Bool.or_eq_true, ihl, ihr]
    constructor
    · rintro ⟨⟨hl, hl'⟩, hr, hr'⟩
      exact ⟨fun i h => h.elim (hl i) (hr i), fun j h => h.elim (hl' j) (hr' j)⟩
    · rintro ⟨h, h'⟩
      exact ⟨⟨fun i hi => h i (.inl hi), fun j hj => h' j (.inl hj)⟩,
        fun i hi => h i (.inr hi), fun j hj => h' j (.inr hj)⟩

/-- An expression valid in some coordinates is valid in larger ones. -/
theorem isValidIn_mono {e : AffineExpr} {nd ns nd' ns' : Nat} (h : e.isValidIn nd ns)
    (hd : nd ≤ nd') (hs : ns ≤ ns') : e.isValidIn nd' ns' := by
  obtain ⟨hdims, hsyms⟩ := isValidIn_iff.mp h
  exact isValidIn_iff.mpr ⟨fun i hi => by have := hdims i hi; omega,
    fun j hj => by have := hsyms j hj; omega⟩

/-- A substitution whose used entries are valid in some coordinates gives an expression valid
in them. -/
theorem isValidIn_of_replaceDimsAndSymbols {dr sr : List (Option AffineExpr)} {e e' : AffineExpr}
    {nd ns : Nat} (h : e.replaceDimsAndSymbols dr sr = some e')
    (hd : ∀ i, e.usesDim i → ∀ r, dr.getD i (some (dim i)) = some r → r.isValidIn nd ns)
    (hs : ∀ j, e.usesSymbol j → ∀ r, sr.getD j (some (symbol j)) = some r → r.isValidIn nd ns) :
    e'.isValidIn nd ns := by
  induction e generalizing e' with
  | dim i => exact hd i (by simp [usesDim]) e' h
  | symbol j => exact hs j (by simp [usesSymbol]) e' h
  | constant c => cases h; rfl
  | binary k lhs rhs ihl ihr =>
    obtain ⟨l, r, hl, hr, rfl⟩ := replaceDimsAndSymbols_binary_eq_some.mp h
    simp only [isValidIn, Bool.and_eq_true]
    exact ⟨ihl hl (fun i hi => hd i (by simp [usesDim, hi])) fun j hj => hs j (by simp [usesSymbol, hj]),
      ihr hr (fun i hi => hd i (by simp [usesDim, hi])) fun j hj => hs j (by simp [usesSymbol, hj])⟩

end AffineExpr

end Mlir
