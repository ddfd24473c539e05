import MlirCore.Affine.Expr
import Mathlib.Data.List.Forall2

/-!
# Affine maps

An affine map is a dim count, a symbol count and a list of result expressions over operands laid
out as the dims, then the symbols. `AffineMap::compose` and `simplifyAffineMap`, which the
normalizer calls, live outside this repository and are modelled from the spec. Composition keeps
the null entries of its symbol replacement list, so it returns `none` on a symbol past the second
map's symbol count; simplification folds constants and drops identities, changing no value.
-/

namespace Mlir

/-- `AffineMap`: dims and symbols counts and the result expressions. -/
structure AffineMap where
  numDims : Nat
  numSymbols : Nat
  results : List AffineExpr
  deriving Repr, DecidableEq

/-- `Option`-valued `mapM` succeeds exactly when every element maps, elementwise. -/
theorem mapM_eq_some_iff_forall₂ {α β : Type} {f : α → Option β} {l : List α}
    {l' : List β} : l.mapM f = some l' ↔ List.Forall₂ (fun a b => f a = some b) l l' := by
  induction l generalizing l' with
  | nil => cases l' <;> simp only [List.mapM_nil, Option.pure_def, Option.some.injEq] <;> simp
  | cons a l ih =>
    cases l' with
    | nil => simp only [List.mapM_cons]; simp [Option.bind_eq_some]
    | cons b l' =>
      simp only [List.mapM_cons, Option.bind_eq_bind, Option.bind_eq_some, Option.pure_def,
        Option.some.injEq, List.forall₂_cons, ← ih, List.cons.injEq]
      constructor
      · rintro ⟨b', hb, l'', hl, rfl, rfl⟩
        exact ⟨hb, hl⟩
      · rintro ⟨hb, hl⟩
        exact ⟨b, hb, l', hl, rfl, rfl⟩

namespace AffineMap

/-- `getNumInputs`. -/
def numInputs (m : AffineMap) : Nat := m.numDims + m.numSymbols

/-- Every referenced dim and symbol position is below the map's counts. -/
def isWellFormed (m : AffineMap) : Bool :=
  m.results.all (AffineExpr.isValidIn m.numDims m.numSymbols)

/-- The result vector on operand values laid out as dims then symbols. -/
def evalOn (m : AffineMap) (values : List Int) : List Int :=
  m.results.map (AffineExpr.eval (fun i => values.getD i 0) (fun j => values.getD (m.numDims + j) 0))

/-- Every divisor of every result is positive on these operand values. -/
def divisorsPositiveOn (m : AffineMap) (values : List Int) : Bool :=
  m.results.all (AffineExpr.divisorsPositive (fun i => values.getD i 0)
    (fun j => values.getD (m.numDims + j) 0))

/-- `AffineMap::replaceDimsAndSymbols`: substitute in every result and set the counts. -/
def replaceDimsAndSymbols (m : AffineMap) (dimReplacements symReplacements : List (Option AffineExpr))
    (numResultDims numResultSyms : Nat) : Option AffineMap :=
  (m.results.mapM (AffineExpr.replaceDimsAndSymbols dimReplacements symReplacements)).map
    fun results => ⟨numResultDims, numResultSyms, results⟩

/-- Modelled from the spec: `AffineMap::compose`. `this`'s dims take `map`'s results and the
symbols are concatenated, `this`'s first; replacement entries past `map.numSymbols` are null. -/
def compose (this map : AffineMap) : Option AffineMap :=
  let numDims := map.numDims
  let numSymbolsThisMap := this.numSymbols
  let numSymbols := numSymbolsThisMap + map.numSymbols
  let newDims := (List.range numDims).map fun idx => some (AffineExpr.dim idx)
  let newSymbols := (List.range numSymbols).map fun idx =>
    if idx < map.numSymbols then some (AffineExpr.symbol (idx + numSymbolsThisMap)) else none
  let newResults := map.results.map (AffineExpr.replaceDimsAndSymbols newDims newSymbols)
  (this.results.mapM (AffineExpr.replaceDimsAndSymbols newResults [])).map
    fun exprs => ⟨numDims, numSymbols, exprs⟩

end AffineMap

namespace AffineExpr

/-- Modelled from the spec: one simplification step at a binary node over simplified operands,
folding two constants (dividing only by a positive one) and dropping `+ 0`, `* 1` and `/ 1`. -/
def simplifyBinary (k : AffineBinaryKind) (lhs rhs : AffineExpr) : AffineExpr :=
  match k, lhs, rhs with
  | k, constant a, constant b =>
    if k.isDivision && b ≤ 0 then binary k lhs rhs else constant (k.apply a b)
  | .add, e, constant 0 => e
  | .mul, e, constant 1 => e
  | .floorDiv, e, constant 1 => e
  | .ceilDiv, e, constant 1 => e
  | k, lhs, rhs => binary k lhs rhs

/-- Modelled from the spec: `simplifyAffineExpr`, bottom-up constant folding and identity
elimination. -/
def simplifyAffineExpr : AffineExpr → AffineExpr
  | binary k lhs rhs => simplifyBinary k lhs.simplifyAffineExpr rhs.simplifyAffineExpr
  | e => e

end AffineExpr

/-- Modelled from the spec: `simplifyAffineMap`, each result simplified, counts kept. -/
def simplifyAffineMap (m : AffineMap) : AffineMap :=
  { m with results := m.results.map AffineExpr.simplifyAffineExpr }

namespace AffineExpr

/-- Evaluation depends only on the positions the expression uses. -/
theorem eval_congr {e : AffineExpr} {dims dims' symbols symbols' : Nat → Int}
    (hd : ∀ i, e.usesDim i → dims i = dims' i) (hs : ∀ j, e.usesSymbol j → symbols j = symbols' j) :
    e.eval dims symbols = e.eval dims' symbols' := by
  induction e with
  | dim i => exact hd i (by simp [usesDim])
  | symbol j => exact hs j (by simp [usesSymbol])
  | constant c => rfl
  | binary k lhs rhs ihl ihr =>
    simp only [eval]
    rw [ihl (fun i h => hd i (by simp [usesDim, h])) (fun j h => hs j (by simp [usesSymbol, h])),
      ihr (fun i h => hd i (by simp [usesDim, h])) (fun j h => hs j (by simp [usesSymbol, h]))]

/-- One simplification step keeps the value of the node. -/
theorem eval_simplifyBinary (k : AffineBinaryKind) (lhs rhs : AffineExpr) (dims symbols : Nat → Int) :
    (simplifyBinary k lhs rhs).eval dims symbols =
      k.apply (lhs.eval dims symbols) (rhs.eval dims symbols) := by
  unfold simplifyBinary
  split
  · split <;> rfl
  all_goals simp [eval, AffineBinaryKind.apply]

/-- Simplification keeps the value of every expression. -/
@[simp] theorem eval_simplifyAffineExpr (e : AffineExpr) (dims symbols : Nat → Int) :
    e.simplifyAffineExpr.eval dims symbols = e.eval dims symbols := by
  induction e with
  | binary k lhs rhs ihl ihr => simp only [simplifyAffineExpr, eval_simplifyBinary, ihl, ihr, eval]
  | _ => rfl

/-- One simplification step uses no dim its operands do not use. -/
theorem usesDim_of_usesDim_simplifyBinary {k : AffineBinaryKind} {lhs rhs : AffineExpr} {i : Nat}
    (h : (simplifyBinary k lhs rhs).usesDim i) : lhs.usesDim i || rhs.usesDim i := by
  unfold simplifyBinary at h
  split at h
  · split at h <;> simp_all [usesDim]
  all_goals simp_all [usesDim]

/-- One simplification step uses no symbol its operands do not use. -/
theorem usesSymbol_of_usesSymbol_simplifyBinary {k : AffineBinaryKind} {lhs rhs : AffineExpr}
    {j : Nat} (h : (simplifyBinary k lhs rhs).usesSymbol j) : lhs.usesSymbol j || rhs.usesSymbol j := by
  unfold simplifyBinary at h
  split at h
  · split at h <;> simp_all [usesSymbol]
  all_goals simp_all [usesSymbol]

/-- Simplification introduces no dim. -/
theorem usesDim_of_usesDim_simplifyAffineExpr {e : AffineExpr} {i : Nat}
    (h : e.simplifyAffineExpr.usesDim i) : e.usesDim i := by
  induction e with
  | binary k lhs rhs ihl ihr =>
    have := usesDim_of_usesDim_simplifyBinary h
    simp only [Bool.or_eq_true] at this
    simp only [usesDim, Bool.or_eq_true]
    exact this.imp ihl ihr
  | _ => exact h

/-- Simplification introduces no symbol. -/
theorem usesSymbol_of_usesSymbol_simplifyAffineExpr {e : AffineExpr} {j : Nat}
    (h : e.simplifyAffineExpr.usesSymbol j) : e.usesSymbol j := by
  induction e with
  | binary k lhs rhs ihl ihr =>
    have := usesSymbol_of_usesSymbol_simplifyBinary h
    simp only [Bool.or_eq_true] at this
    simp only [usesSymbol, Bool.or_eq_true]
    exact this.imp ihl ihr
  | _ => exact h

end AffineExpr

namespace AffineMap

@[simp] theorem simplifyAffineMap_numDims (m : AffineMap) :
    (simplifyAffineMap m).numDims = m.numDims := rfl

@[simp] theorem simplifyAffineMap_numSymbols (m : AffineMap) :
    (simplifyAffineMap m).numSymbols = m.numSymbols := rfl

@[simp] theorem simplifyAffineMap_results_length (m : AffineMap) :
    (simplifyAffineMap m).results.length = m.results.length := by
  simp [simplifyAffineMap]

/-- Simplification keeps the map's value on every operand vector. -/
@[simp] theorem evalOn_simplifyAffineMap (m : AffineMap) (values : List Int) :
    (simplifyAffineMap m).evalOn values = m.evalOn values := by
  simp [simplifyAffineMap, evalOn, Function.comp_def]

/-- Simplification keeps a map well formed. -/
theorem isWellFormed_simplifyAffineMap {m : AffineMap} (h : m.isWellFormed) :
    (simplifyAffineMap m).isWellFormed := by
  simp only [isWellFormed, List.all_eq_true, AffineExpr.isValidIn_iff] at h ⊢
  simp only [simplifyAffineMap, List.mem_map]
  rintro _ ⟨e, he, rfl⟩
  exact ⟨fun i hi => (h e he).1 i (AffineExpr.usesDim_of_usesDim_simplifyAffineExpr hi),
    fun j hj => (h e he).2 j (AffineExpr.usesSymbol_of_usesSymbol_simplifyAffineExpr hj)⟩

/-- A map-level substitution succeeds exactly when every result is substituted. -/
theorem replaceDimsAndSymbols_eq_some {m m' : AffineMap} {dr sr : List (Option AffineExpr)}
    {nd ns : Nat} :
    m.replaceDimsAndSymbols dr sr nd ns = some m' ↔
      ∃ results, List.Forall₂ (fun e e' => e.replaceDimsAndSymbols dr sr = some e') m.results results ∧
        m' = ⟨nd, ns, results⟩ := by
  simp only [replaceDimsAndSymbols, Option.map_eq_some', mapM_eq_some_iff_forall₂]
  exact ⟨fun ⟨rs, h, e⟩ => ⟨rs, h, e.symm⟩, fun ⟨rs, h, e⟩ => ⟨rs, h, e.symm⟩⟩

/-- Every element on the right of an elementwise relation is related to one on the left. -/
private theorem exists_of_forall₂_of_mem {α β : Type} {R : α → β → Prop} {l : List α}
    {l' : List β} (h : List.Forall₂ R l l') {b : β} (hb : b ∈ l') : ∃ a ∈ l, R a b := by
  induction h with
  | nil => cases hb
  | cons hab _ ih =>
    rcases List.mem_cons.mp hb with rfl | hb
    · exact ⟨_, List.mem_cons_self _ _, hab⟩
    · obtain ⟨a, ha, hr⟩ := ih hb
      exact ⟨a, List.mem_cons_of_mem _ ha, hr⟩

/-- Every element on the left of an elementwise relation is related to one on the right. -/
private theorem exists_of_forall₂_of_mem_left {α β : Type} {R : α → β → Prop} {l : List α}
    {l' : List β} (h : List.Forall₂ R l l') {a : α} (ha : a ∈ l) : ∃ b ∈ l', R a b := by
  induction h with
  | nil => cases ha
  | cons hab _ ih =>
    rcases List.mem_cons.mp ha with rfl | ha
    · exact ⟨_, List.mem_cons_self _ _, hab⟩
    · obtain ⟨b, hb, hr⟩ := ih ha
      exact ⟨b, List.mem_cons_of_mem _ hb, hr⟩

/-- Every result of the original map has its substituted counterpart among the new results. -/
theorem exists_mem_of_replaceDimsAndSymbols {m m' : AffineMap} {dr sr : List (Option AffineExpr)}
    {nd ns : Nat} (h : m.replaceDimsAndSymbols dr sr nd ns = some m') {e : AffineExpr}
    (he : e ∈ m.results) : ∃ e' ∈ m'.results, e.replaceDimsAndSymbols dr sr = some e' := by
  obtain ⟨results, hrs, rfl⟩ := replaceDimsAndSymbols_eq_some.mp h
  exact exists_of_forall₂_of_mem_left hrs he

/-- A map-level substitution keeps the number of results. -/
theorem results_length_of_replaceDimsAndSymbols {m m' : AffineMap}
    {dr sr : List (Option AffineExpr)} {nd ns : Nat} (h : m.replaceDimsAndSymbols dr sr nd ns = some m') :
    m'.results.length = m.results.length ∧ m'.numDims = nd ∧ m'.numSymbols = ns := by
  obtain ⟨results, hrs, rfl⟩ := replaceDimsAndSymbols_eq_some.mp h
  exact ⟨hrs.length_eq.symm, rfl, rfl⟩

/-- Composition takes `map`'s dims, the symbols of both maps, and one result per result of
`this`. -/
theorem compose_eq_some {this map c : AffineMap} (h : this.compose map = some c) :
    c.numDims = map.numDims ∧ c.numSymbols = this.numSymbols + map.numSymbols ∧
      c.results.length = this.results.length := by
  simp only [compose, Option.map_eq_some', mapM_eq_some_iff_forall₂] at h
  obtain ⟨exprs, hexprs, rfl⟩ := h
  exact ⟨rfl, rfl, hexprs.length_eq.symm⟩

/-- A replacement list whose entries are all set yields no null entry. -/
theorem getD_ne_none_of_forall {l : List (Option AffineExpr)} (h : ∀ x ∈ l, x ≠ none) (i : Nat)
    (e : AffineExpr) : l.getD i (some e) ≠ none := by
  rw [List.getD_eq_getElem?_getD]
  cases hi : l[i]? with
  | none => exact Option.some_ne_none e
  | some x => exact h x (List.mem_iff_getElem?.mpr ⟨i, hi⟩)

/-- A map-level substitution succeeds when no used position has a null entry. -/
theorem replaceDimsAndSymbols_isSome {m : AffineMap} {dr sr : List (Option AffineExpr)} {nd ns : Nat}
    (hd : ∀ e ∈ m.results, ∀ i, e.usesDim i → dr.getD i (some (.dim i)) ≠ none)
    (hs : ∀ e ∈ m.results, ∀ j, e.usesSymbol j → sr.getD j (some (.symbol j)) ≠ none) :
    (m.replaceDimsAndSymbols dr sr nd ns).isSome := by
  suffices ∀ l : List AffineExpr, (∀ e ∈ l, ∀ i, e.usesDim i → dr.getD i (some (.dim i)) ≠ none) →
      (∀ e ∈ l, ∀ j, e.usesSymbol j → sr.getD j (some (.symbol j)) ≠ none) →
      (l.mapM (AffineExpr.replaceDimsAndSymbols dr sr)).isSome by
    simpa [replaceDimsAndSymbols] using this m.results hd hs
  intro l hd hs
  induction l with
  | nil => rfl
  | cons e l ih =>
    obtain ⟨e', he'⟩ := Option.isSome_iff_exists.mp
      (AffineExpr.replaceDimsAndSymbols_isSome (hd e (List.mem_cons_self _ _))
        (hs e (List.mem_cons_self _ _)))
    obtain ⟨l', hl'⟩ := Option.isSome_iff_exists.mp
      (ih (fun e he => hd e (List.mem_cons_of_mem _ he)) (fun e he => hs e (List.mem_cons_of_mem _ he)))
    rw [List.mapM_cons, he', hl']
    rfl

/-- A substitution whose used entries are valid in the new coordinates gives a well-formed
map. -/
theorem isWellFormed_of_replaceDimsAndSymbols {m m' : AffineMap} {dr sr : List (Option AffineExpr)}
    {nd ns : Nat} (h : m.replaceDimsAndSymbols dr sr nd ns = some m')
    (hd : ∀ e ∈ m.results, ∀ i, e.usesDim i → ∃ r, dr.getD i (some (.dim i)) = some r ∧ r.isValidIn nd ns)
    (hs : ∀ e ∈ m.results, ∀ j, e.usesSymbol j →
      ∃ r, sr.getD j (some (.symbol j)) = some r ∧ r.isValidIn nd ns) :
    m'.isWellFormed := by
  obtain ⟨results, hrs, rfl⟩ := replaceDimsAndSymbols_eq_some.mp h
  simp only [isWellFormed, List.all_eq_true, AffineExpr.isValidIn_iff]
  intro e' he'
  obtain ⟨e, he, hrep⟩ := exists_of_forall₂_of_mem hrs he'
  have hvalid : ∀ r, (∃ i, e.usesDim i ∧ dr.getD i (some (.dim i)) = some r) ∨
      (∃ j, e.usesSymbol j ∧ sr.getD j (some (.symbol j)) = some r) → r.isValidIn nd ns := by
    rintro r (⟨i, hi, hr⟩ | ⟨j, hj, hr⟩)
    · obtain ⟨r', hr', hv⟩ := hd e he i hi
      exact (Option.some.inj (hr.symm.trans hr')) ▸ hv
    · obtain ⟨r', hr', hv⟩ := hs e he j hj
      exact (Option.some.inj (hr.symm.trans hr')) ▸ hv
  constructor
  · intro k hk
    rcases (AffineExpr.usesDim_replaceDimsAndSymbols hrep k).mp hk with
      ⟨i, hi, r, hr, hrk⟩ | ⟨j, hj, r, hr, hrk⟩
    · exact (AffineExpr.isValidIn_iff.mp (hvalid r (.inl ⟨i, hi, hr⟩))).1 k hrk
    · exact (AffineExpr.isValidIn_iff.mp (hvalid r (.inr ⟨j, hj, hr⟩))).1 k hrk
  · intro k hk
    rcases (AffineExpr.usesSymbol_replaceDimsAndSymbols hrep k).mp hk with
      ⟨i, hi, r, hr, hrk⟩ | ⟨j, hj, r, hr, hrk⟩
    · exact (AffineExpr.isValidIn_iff.mp (hvalid r (.inl ⟨i, hi, hr⟩))).2 k hrk
    · exact (AffineExpr.isValidIn_iff.mp (hvalid r (.inr ⟨j, hj, hr⟩))).2 k hrk

/-- Composition keeps maps well formed when `this` is, each of its dims is given a result of
`map`, and those results are valid over `map`'s dims and the symbols of both maps. -/
theorem isWellFormed_compose {this map c : AffineMap} (h : this.compose map = some c)
    (hthis : this.isWellFormed) (hdims : this.numDims ≤ map.results.length)
    (hmap : ∀ e ∈ map.results, e.isValidIn map.numDims (this.numSymbols + map.numSymbols)) :
    c.isWellFormed := by
  simp only [compose, Option.map_eq_some', mapM_eq_some_iff_forall₂] at h
  obtain ⟨exprs, hexprs, rfl⟩ := h
  simp only [isWellFormed, List.all_eq_true]
  intro e' he'
  obtain ⟨e, he, hrep⟩ := exists_of_forall₂_of_mem hexprs he'
  have hvalid := AffineExpr.isValidIn_iff.mp (List.all_eq_true.mp hthis e he)
  refine AffineExpr.isValidIn_of_replaceDimsAndSymbols hrep (fun i hi r hr => ?_) fun j hj r hr => ?_
  · -- dim `i` of `this` takes `map`'s result `i`, whose symbols move past those of `this`
    have hlt : i < map.results.length := by have := hvalid.1 i hi; omega
    have hmapi := AffineExpr.isValidIn_iff.mp (hmap _ (List.getElem_mem hlt))
    rw [List.getD_eq_getElem?_getD, List.getElem?_map, List.getElem?_eq_getElem hlt,
      Option.map_some', Option.getD_some] at hr
    refine AffineExpr.isValidIn_of_replaceDimsAndSymbols hr (fun i' hi' r' hr' => ?_)
      fun j' hj' r' hr' => ?_
    · rw [List.getD_eq_getElem?_getD, List.getElem?_map, List.getElem?_range (hmapi.1 i' hi'),
        Option.map_some', Option.getD_some, Option.some.injEq] at hr'
      subst hr'
      simpa [AffineExpr.isValidIn] using hmapi.1 i' hi'
    · rw [List.getD_eq_getElem?_getD, List.getElem?_map, List.getElem?_range (hmapi.2 j' hj'),
        Option.map_some', Option.getD_some] at hr'
      split at hr'
      · cases hr'
        simp only [AffineExpr.isValidIn, decide_eq_true_eq]
        omega
      · cases hr'
  · -- the symbols of `this` stay in front
    rw [List.getD_nil, Option.some.injEq] at hr
    subst hr
    simp only [AffineExpr.isValidIn, decide_eq_true_eq]
    have := hvalid.2 j hj
    omega

/-- A substitution whose used entries are the positions themselves gives back the map. -/
theorem replaceDimsAndSymbols_eq_self {m : AffineMap} {dr sr : List (Option AffineExpr)}
    (hd : ∀ e ∈ m.results, ∀ i, e.usesDim i → dr.getD i (some (.dim i)) = some (.dim i))
    (hs : ∀ e ∈ m.results, ∀ j, e.usesSymbol j → sr.getD j (some (.symbol j)) = some (.symbol j)) :
    m.replaceDimsAndSymbols dr sr m.numDims m.numSymbols = some m := by
  refine replaceDimsAndSymbols_eq_some.mpr ⟨m.results, List.forall₂_same.mpr fun e he => ?_, rfl⟩
  exact AffineExpr.replaceDimsAndSymbols_eq_self (hd e he) (hs e he)

/-- The operand an expression leaf reads from an operand list laid out with `numDims` dims. -/
def leafOperand {α : Type} (numDims : Nat) (operands : List α) : AffineExpr → Option α
  | .dim k => operands[k]?
  | .symbol k => operands[numDims + k]?
  | _ => none

/-- A leaf evaluates to the value of the operand it reads. -/
theorem eval_of_leafOperand {α : Type} {numDims : Nat} {operands : List α} {r : AffineExpr}
    {v : α} (h : leafOperand numDims operands r = some v) (ρ : α → Int) :
    r.eval (fun k => (operands.map ρ).getD k 0) (fun k => (operands.map ρ).getD (numDims + k) 0) =
      ρ v := by
  cases r <;> simp_all [leafOperand, AffineExpr.eval]

/-- Two elementwise-related lists have equal images when related elements have equal images. -/
theorem map_eq_map_of_forall₂ {α β γ : Type} {R : α → β → Prop} {f : α → γ} {g : β → γ}
    {l : List α} {l' : List β} (h : List.Forall₂ R l l') (hfg : ∀ a ∈ l, ∀ b, R a b → g b = f a) :
    l'.map g = l.map f := by
  induction h with
  | nil => rfl
  | cons hab _ ih =>
    simp only [List.map_cons, List.mem_cons] at hfg ⊢
    rw [hfg _ (.inl rfl) _ hab, ih fun a ha => hfg a (.inr ha)]

/-- A substitution that sends every used position to a position holding the same operand keeps
the map's value under every assignment of the operands. -/
theorem evalOn_eq_of_replaceDimsAndSymbols {α : Type} {m m' : AffineMap}
    {dr sr : List (Option AffineExpr)} {nd ns : Nat} (h : m.replaceDimsAndSymbols dr sr nd ns = some m')
    {operands operands' : List α}
    (hd : ∀ e ∈ m.results, ∀ i, e.usesDim i → ∃ r v, dr.getD i (some (.dim i)) = some r ∧
      operands[i]? = some v ∧ leafOperand nd operands' r = some v)
    (hs : ∀ e ∈ m.results, ∀ j, e.usesSymbol j → ∃ r v, sr.getD j (some (.symbol j)) = some r ∧
      operands[m.numDims + j]? = some v ∧ leafOperand nd operands' r = some v)
    (ρ : α → Int) : m'.evalOn (operands'.map ρ) = m.evalOn (operands.map ρ) := by
  obtain ⟨results, hrs, rfl⟩ := replaceDimsAndSymbols_eq_some.mp h
  refine map_eq_map_of_forall₂ hrs fun e he e' he' => ?_
  rw [AffineExpr.eval_replaceDimsAndSymbols he']
  refine AffineExpr.eval_congr (fun i hi => ?_) (fun j hj => ?_)
  · obtain ⟨r, v, hr, hv, hleaf⟩ := hd e he i hi
    simp only [AffineExpr.replacementValue, hr, Option.map_some', Option.getD_some,
      eval_of_leafOperand hleaf]
    simp [hv]
  · obtain ⟨r, v, hr, hv, hleaf⟩ := hs e he j hj
    simp only [AffineExpr.replacementValue, hr, Option.map_some', Option.getD_some,
      eval_of_leafOperand hleaf]
    simp [hv]

end AffineMap

end Mlir
