import MlirCore.Affine.Compose
import MlirCore.Affine.Coordinates

/-!
# Composition keeps the value of `affine.apply` chains without symbols

An `affine.apply` result takes its map's first result on its operands' values (`IR.valueOf`), and
composition should keep the map's value. It does when no `affine.apply` of the function has
symbols; otherwise nested symbols are numbered in the wrong order (`Compose`), and one level down
the operands are dispatched by the promoted dim count, which swaps a plain symbol with a later
`affine.apply` symbol (the example after `composeAffineMapAndOperands_sound`). The proof follows
the constructor: `DimsOnly` is the loop invariant, `NestedSound` what a nested normalizer must
give, `finish_sound` the end of the constructor, and `nestedSound_build` closes the recursion.
-/

namespace Mlir

/-- Every `affine.apply` of the function has a map without symbols. -/
def IR.affineAppliesSymbolFree (ir : IR) : Prop :=
  ∀ v map operands, ir.affineApplyOf v = some (map, operands) → map.numSymbols = 0

/-- Checked on each of the function's values. -/
instance (ir : IR) : Decidable ir.affineAppliesSymbolFree :=
  decidable_of_iff ((List.range ir.values.length).all fun v => match ir.affineApplyOf v with
      | some (map, _) => map.numSymbols == 0
      | none => true) <| by
    simp only [List.all_eq_true, List.mem_range, IR.affineAppliesSymbolFree]
    constructor
    · intro h v map operands hv
      simpa [hv] using h v (IR.lt_length_of_affineApplyOf hv)
    · intro h v _
      cases hv : ir.affineApplyOf v with
      | none => rfl
      | some p => simpa using h v p.1 p.2 hv

/-- An `affine.apply` result takes its map's first result on its operands' values. -/
theorem IR.valueOf_of_affineApplyOf {ir : IR} {σ : Value → Int} {v : Value} {map : AffineMap}
    {operands : List Value} (h : ir.affineApplyOf v = some (map, operands)) :
    ir.valueOf σ v = (map.evalOn (operands.map (ir.valueOf σ))).headD 0 := by
  rw [IR.valueOf, IR.fold_eq, h]
  rfl

/-- Composing with a map whose results read only its dims substitutes those results for the
outer map's dims. -/
theorem AffineMap.compose_of_dims_only {this map : AffineMap}
    (hmap : ∀ e ∈ map.results, e.isValidIn map.numDims 0) :
    this.compose map = this.replaceDimsAndSymbols (map.results.map some) []
      map.numDims (this.numSymbols + map.numSymbols) := by
  have hnew : map.results.map (AffineExpr.replaceDimsAndSymbols
      ((List.range map.numDims).map fun idx => some (.dim idx))
      ((List.range (this.numSymbols + map.numSymbols)).map fun idx =>
        if idx < map.numSymbols then some (.symbol (idx + this.numSymbols)) else none)) =
      map.results.map some := by
    refine List.map_congr_left fun e he => AffineExpr.replaceDimsAndSymbols_eq_self
      (fun i _ => ?_) fun j hj => absurd ((AffineExpr.isValidIn_iff.mp (hmap e he)).2 j hj)
        (Nat.not_lt_zero j)
    rw [List.getD_eq_getElem?_getD]
    by_cases hi : i < map.numDims
    · simp [hi]
    · simp [List.getElem?_eq_none (show (List.range map.numDims).length ≤ i by simpa using hi)]
  simp only [compose, replaceDimsAndSymbols, hnew]

namespace AffineApplyNormalizer

/-- A well-formed map with one dim per reordered dim reads, on the normalizer's operands, what
its results read in the normalizer's coordinates. -/
theorem evalOn_getOperands {n : AffineApplyNormalizer} (hwf : n.affineMap.isWellFormed)
    (hnd : n.affineMap.numDims = n.reorderedDims.length) (ρ : Value → Int) :
    n.affineMap.evalOn (n.getOperands.map ρ) = n.affineMap.results.map (n.evalPositional ρ) := by
  refine List.map_congr_left fun e he => AffineExpr.eval_congr (fun i hi => ?_) fun j _ => ?_
  · have hlt := (AffineExpr.isValidIn_iff.mp (List.all_eq_true.mp hwf e he)).1 i hi
    rw [getOperands, List.map_append, List.getD_append _ _ _ _ (by simpa [← hnd] using hlt)]
  · rw [getOperands, List.map_append, hnd, List.getD_append_right _ _ _ _ (by simp),
      List.length_map, Nat.add_sub_cancel_left]

/-- An expression without symbols reads only dims, so appending dims keeps its value. -/
theorem evalPositional_of_dims_append {n n' : AffineApplyNormalizer} {e : AffineExpr}
    (he : e.isValidIn n.reorderedDims.length 0) {d : List Value}
    (hdims : n'.reorderedDims = n.reorderedDims ++ d) (ρ : Value → Int) :
    n'.evalPositional ρ e = n.evalPositional ρ e := by
  obtain ⟨hd, hs⟩ := AffineExpr.isValidIn_iff.mp he
  refine AffineExpr.eval_congr (fun i hi => ?_) fun j hj => absurd (hs j hj) (Nat.not_lt_zero j)
  rw [hdims, List.map_append, List.getD_append _ _ _ _ (by simpa using hd i hi)]

/-- The constructor's end on symbol-free expressions, one per dim of the rewritten map: `compose`
succeeds, and its map is the rewritten map on the expressions' values, then the symbols'. -/
theorem finish_sound {map : AffineMap} {n : AffineApplyNormalizer} {aux : List AffineExpr}
    (hwf : map.isWellFormed) (hlen : map.numDims = aux.length)
    (haux : ∀ e ∈ aux, e.isValidIn n.reorderedDims.length 0)
    (hnil : aux = [] → n.reorderedDims = []) :
    ∃ N, finish map n aux = some N ∧ N.reorderedDims = n.reorderedDims ∧
      N.concatenatedSymbols = n.concatenatedSymbols ∧
      ∀ ρ, N.affineMap.results.map (N.evalPositional ρ) =
        map.evalOn (aux.map (n.evalPositional ρ) ++ n.concatenatedSymbols.map ρ) := by
  have hvalid e (he : e ∈ map.results) := AffineExpr.isValidIn_iff.mp (List.all_eq_true.mp hwf e he)
  by_cases hempty : aux = []
  · -- nothing collected: the map is kept, and it has no dim to read
    subst hempty
    refine ⟨{ n with affineMap := map }, rfl, rfl, rfl, fun ρ => ?_⟩
    refine List.map_congr_left fun e he => AffineExpr.eval_congr (fun i hi => ?_) fun j _ => ?_
    · exact absurd ((hvalid e he).1 i hi) (by simp [hlen])
    · simp [hnil rfl, hlen]
  · -- the collected expressions take the place of the rewritten map's dims
    have haux' : ∀ e ∈ (auxiliaryMap map n aux).results,
        e.isValidIn (auxiliaryMap map n aux).numDims 0 := by
      simpa [auxiliaryMap, dimValueToPosition_length] using haux
    have hsub := @AffineMap.replaceDimsAndSymbols_isSome map (aux.map some) []
      (auxiliaryMap map n aux).numDims (map.numSymbols + (auxiliaryMap map n aux).numSymbols)
      (fun e he i hi => by
        have := (hvalid e he).1 i hi
        simp [List.getD_eq_getElem?_getD, List.getElem?_map, List.getElem?_eq_getElem (hlen ▸ this)])
      (fun _ _ j _ => by simp)
    obtain ⟨c, hc⟩ := Option.isSome_iff_exists.mp hsub
    refine ⟨{ n with affineMap := simplifyAffineMap c }, ?_, rfl, rfl, fun ρ => ?_⟩
    · simp only [finish, List.isEmpty_iff, hempty, if_false, AffineMap.compose_of_dims_only haux']
      exact congrArg (Option.map _) hc
    obtain ⟨results, hrs, rfl⟩ := AffineMap.replaceDimsAndSymbols_eq_some.mp hc
    simp only [simplifyAffineMap, List.map_map]
    refine AffineMap.map_eq_map_of_forall₂ hrs fun e he e' hrep => ?_
    simp only [Function.comp, evalPositional, AffineExpr.eval_simplifyAffineExpr,
      AffineExpr.eval_replaceDimsAndSymbols hrep]
    refine AffineExpr.eval_congr (fun i hi => ?_) fun j _ => ?_
    · have hi' : i < aux.length := hlen ▸ (hvalid e he).1 i hi
      have hlt : i < (aux.map (n.evalPositional ρ)).length := by simpa using hi'
      simp [AffineExpr.replacementValue, List.getD_eq_getElem?_getD, List.getElem?_append_left hlt,
        List.getElem?_map, List.getElem?_eq_getElem hi', evalPositional]
    · simp [AffineExpr.replacementValue, AffineExpr.eval, List.getD_eq_getElem?_getD, hlen,
        List.getElem?_append_right]

/-! ## Renumbering brings in no symbol -/

/-- `renumberOneDim` returns a dim expression. -/
theorem renumberOneDim_fst (n : AffineApplyNormalizer) (v : Value) :
    ∃ k, (n.renumberOneDim v).1 = .dim k := by
  unfold renumberOneDim
  split <;> exact ⟨_, rfl⟩

/-- `renumber`'s loop only ever sets dim expressions in its remapping. -/
theorem renumberDims_remaps_to_dims (other : AffineApplyNormalizer) :
    ∀ (l : List Value) (r : List (Option AffineExpr)) (n : AffineApplyNormalizer)
      {r' : List (Option AffineExpr)} {n' : AffineApplyNormalizer},
      renumberDims other l (r, n) = some (r', n') →
      (∀ e, some e ∈ r → ∃ k, e = .dim k) → ∀ e, some e ∈ r' → ∃ k, e = .dim k
  | [], r, n, r', n', h, hr => by cases h; exact hr
  | v :: rest, r, n, r', n', h, hr => by
    simp only [renumberDims, Option.bind_eq_bind, Option.bind_eq_some] at h
    obtain ⟨position, -, h⟩ := h
    refine renumberDims_remaps_to_dims other rest _ _ h fun e he => ?_
    rcases List.mem_or_eq_of_mem_set he with he | he
    · rcases List.mem_append.mp he with he | he
      · exact hr e he
      · exact absurd (List.eq_of_mem_replicate he) (Option.some_ne_none e)
    · rw [Option.some.injEq] at he
      exact he ▸ renumberOneDim_fst n v

/-- `renumber` rewrites each result of the nested map into one that reads a symbol only if the
original does. -/
theorem renumber_usesSymbol {n other n' : AffineApplyNormalizer} {map : AffineMap}
    (h : n.renumber other = some (map, n')) :
    List.Forall₂ (fun e e' => ∀ k, e'.usesSymbol k → ∃ j, e.usesSymbol j)
      other.affineMap.results map.results := by
  simp only [renumber, Option.bind_eq_bind, Option.bind_eq_some] at h
  obtain ⟨⟨r, n₁⟩, h₁, m, hm, h⟩ := h
  cases h
  obtain ⟨results, hrs, rfl⟩ := AffineMap.replaceDimsAndSymbols_eq_some.mp hm
  have hdims := renumberDims_remaps_to_dims other _ [] n h₁ (by simp)
  refine hrs.imp fun {e e'} hrep k hk => ?_
  rcases (AffineExpr.usesSymbol_replaceDimsAndSymbols hrep k).mp hk with
    ⟨i, -, x, hx, hxk⟩ | ⟨j, hj, -⟩
  · -- a dim is remapped to a dim, which reads no symbol
    rw [List.getD_eq_getElem?_getD] at hx
    obtain ⟨k', rfl⟩ : ∃ k', x = .dim k' := by
      cases hri : r[i]? with
      | none => rw [hri, Option.getD_none, Option.some.injEq] at hx; exact ⟨i, hx.symm⟩
      | some y => rw [hri, Option.getD_some] at hx; exact hdims x (hx ▸ List.getElem?_mem hri)
    simp [AffineExpr.usesSymbol] at hxk
  · exact ⟨j, hj⟩

/-! ## The loop when nested normalizers have no symbols -/

/-- The composing loop's state when nested normalizers bring no symbols: a reachable normalizer,
expressions that read only its dims, and dims only once an expression was collected. -/
structure DimsOnly (s : AffineApplyNormalizer × List AffineExpr) : Prop where
  reachable : Reachable s.1
  valid : ∀ e ∈ s.2, e.isValidIn s.1.reorderedDims.length 0
  dims_nil : s.2 = [] → s.1.reorderedDims = []

/-- The constructor's loops start in `DimsOnly`. -/
theorem DimsOnly.init : DimsOnly (empty, []) := ⟨.init, by simp, fun _ => rfl⟩

/-- `DimsOnly` is a case of the loop invariant. -/
theorem DimsOnly.loopInvariant {s : AffineApplyNormalizer × List AffineExpr} (h : DimsOnly s) :
    LoopInvariant s :=
  ⟨h.reachable, fun e he => AffineExpr.isValidIn_mono (h.valid e he) le_rfl (Nat.zero_le _)⟩

/-- The collected expressions keep their values while dims are appended. -/
theorem DimsOnly.map_evalPositional {s : AffineApplyNormalizer × List AffineExpr} (h : DimsOnly s)
    {n' : AffineApplyNormalizer} {d : List Value} (hdims : n'.reorderedDims = s.1.reorderedDims ++ d)
    (ρ : Value → Int) : s.2.map (n'.evalPositional ρ) = s.2.map (s.1.evalPositional ρ) :=
  List.map_congr_left fun e he => evalPositional_of_dims_append (h.valid e he) hdims ρ

/-- Appending dims and collecting an expression that reads them and no symbol keeps
`DimsOnly`. -/
theorem DimsOnly.collect {n n' : AffineApplyNormalizer} {aux : List AffineExpr} {e : AffineExpr}
    (h : DimsOnly (n, aux)) (hr : Reachable n') {d : List Value}
    (hdims : n'.reorderedDims = n.reorderedDims ++ d) (he : e.isValidIn n'.reorderedDims.length 0) :
    DimsOnly (n', aux ++ [e]) :=
  ⟨hr, fun e' he' => (List.mem_append.mp he').elim
      (fun he' => AffineExpr.isValidIn_mono (h.valid e' he') (by simp [hdims]) le_rfl)
      fun he' => List.mem_singleton.mp he' ▸ he,
    fun hnil => absurd hnil (by simp)⟩

/-- Appending a plain symbol keeps `DimsOnly`. -/
theorem DimsOnly.appendSymbol {n : AffineApplyNormalizer} {aux : List AffineExpr}
    (h : DimsOnly (n, aux)) (t : Value) :
    DimsOnly ({ n with concatenatedSymbols := n.concatenatedSymbols ++ [t] }, aux) :=
  ⟨.appendSymbol t h.reachable, h.valid, h.dims_nil⟩

/-- Renumbering a plain operand as a dim appends at most that dim, keeps the symbols and
collects a dim expression read as the operand. -/
theorem DimsOnly.renumberOneDim {n : AffineApplyNormalizer} {aux : List AffineExpr}
    (h : DimsOnly (n, aux)) (t : Value) :
    DimsOnly ((n.renumberOneDim t).2, aux ++ [(n.renumberOneDim t).1]) ∧
      (∃ d, (n.renumberOneDim t).2.reorderedDims = n.reorderedDims ++ d) ∧
      (n.renumberOneDim t).2.concatenatedSymbols = n.concatenatedSymbols ∧
      ∀ ρ, (n.renumberOneDim t).2.evalPositional ρ (n.renumberOneDim t).1 = ρ t := by
  obtain ⟨-, ⟨i, he, hi⟩, hdims, hsyms⟩ := h.reachable.coherent.renumberOneDim t
  obtain ⟨d, hd⟩ : ∃ d, (n.renumberOneDim t).2.reorderedDims = n.reorderedDims ++ d := by
    rw [hdims]
    split
    · exact ⟨[], (List.append_nil _).symm⟩
    · exact ⟨[t], rfl⟩
  refine ⟨h.collect (.renumberOneDim t h.reachable) hd ?_, ⟨d, hd⟩, hsyms, fun ρ => ?_⟩
  · rw [he]
    simpa [AffineExpr.isValidIn] using (List.getElem?_eq_some_iff.mp hi).1
  · rw [he]
    simp [evalPositional, AffineExpr.eval, List.getD_eq_getElem?_getD, hi]

/-- Renumbering a reachable symbol-free nested normalizer appends dims, keeps the symbols, and
keeps a symbol-free first result symbol-free with the value the nested one gives it. -/
theorem DimsOnly.renumber {n other n' : AffineApplyNormalizer} {aux : List AffineExpr}
    {renumbered : AffineMap} {e₀ e : AffineExpr} (h : DimsOnly (n, aux)) (hother : Reachable other)
    (hsyms : other.concatenatedSymbols = []) (he₀ : other.affineMap.results.head? = some e₀)
    (hvalid : e₀.isValidIn other.reorderedDims.length 0)
    (hren : n.renumber other = some (renumbered, n')) (he : renumbered.results.head? = some e) :
    DimsOnly (n', aux ++ [e]) ∧ (∃ d, n'.reorderedDims = n.reorderedDims ++ d) ∧
      n'.concatenatedSymbols = n.concatenatedSymbols ∧
      ∀ ρ, n'.evalPositional ρ e = other.evalPositional ρ e₀ := by
  obtain ⟨map', n'', hren', -, ⟨d, hd⟩, hs, hforall⟩ :=
    h.reachable.coherent.renumber hother.coherent
  obtain ⟨hmap, hn⟩ := Prod.mk.inj (Option.some.inj (hren'.symm.trans hren))
  rw [hmap] at hforall
  rw [hn] at hd hs hforall
  obtain ⟨e', he', hrel⟩ := forall₂_head?_left hforall he₀
  rw [Option.some.inj (he'.symm.trans he)] at hrel
  obtain ⟨e'', he'', hsym⟩ := forall₂_head?_left (renumber_usesSymbol hren) he₀
  rw [Option.some.inj (he''.symm.trans he)] at hsym
  obtain ⟨hvalid', heval⟩ := hrel (by simpa [hsyms] using hvalid)
  have hnew : e.isValidIn n'.reorderedDims.length 0 := AffineExpr.isValidIn_iff.mpr
    ⟨(AffineExpr.isValidIn_iff.mp hvalid').1, fun k hk => by
      obtain ⟨j, hj⟩ := hsym k hk
      exact absurd ((AffineExpr.isValidIn_iff.mp hvalid).2 j hj) (Nat.not_lt_zero j)⟩
  exact ⟨h.collect (.renumber h.reachable hother hren) hd hnew, ⟨d, hd⟩,
    by rw [hs, hsyms, List.append_nil], heval⟩

/-- What the loop needs for operand `t`: when an `affine.apply` defines it, a reachable, symbol-free
nested normalizer whose symbol-free first result has `t`'s value under admissible assignments. -/
def NestedSound (ir : IR) (nested : AffineMap → List Value → Option AffineApplyNormalizer)
    (admissible : (Value → Int) → Prop) (t : Value) : Prop :=
  ∀ map operands, ir.affineApplyOf t = some (map, operands) →
    ∃ other e, nested map operands = some other ∧ Reachable other ∧
      other.concatenatedSymbols = [] ∧ other.affineMap.results.head? = some e ∧
      e.isValidIn other.reorderedDims.length 0 ∧ ∀ ρ, admissible ρ → other.evalPositional ρ e = ρ t

/-- The operands collected from a list with one more operand in front, `k` positions before
the symbols. -/
theorem take_append_filter_drop_cons (p : Value → Bool) (t : Value) (rest : List Value) (k : Nat) :
    (t :: rest).take k ++ ((t :: rest).drop k).filter p =
      (if k ≠ 0 ∨ p t then [t] else []) ++ (rest.take (k - 1) ++ (rest.drop (k - 1)).filter p) := by
  cases k with
  | zero => by_cases hp : p t <;> simp [List.filter_cons, hp]
  | succ k => simp

/-- The symbol operands kept from a list with one more operand in front, `k` positions before
the symbols. -/
theorem filter_drop_cons (p : Value → Bool) (t : Value) (rest : List Value) (k : Nat) :
    ((t :: rest).drop k).filter p = (if k = 0 ∧ p t then [t] else []) ++ (rest.drop (k - 1)).filter p := by
  cases k with
  | zero => by_cases hp : p t <;> simp [List.filter_cons, hp]
  | succ k => simp

section Loop

variable {ir : IR} {nested : AffineMap → List Value → Option AffineApplyNormalizer}
  {admissible : (Value → Int) → Prop} {numDimsBeforeRewrite : Nat}

/-- A run of the composing loop goes on from the state its first step reaches. -/
theorem composeAndDispatch_of_step {i : Nat} {t : Value} {rest : List Value}
    {s s' : AffineApplyNormalizer × List AffineExpr}
    (hstep : DispatchStep ir nested numDimsBeforeRewrite i t s s') :
    composeAndDispatch ir nested numDimsBeforeRewrite i (t :: rest) s =
      composeAndDispatch ir nested numDimsBeforeRewrite (i + 1) rest s' := by
  cases hstep with
  | compose happ hother hren he => simp [composeAndDispatch, happ, hother, hren, he]
  | dim happ hi => simp [composeAndDispatch, happ, hi]
  | symbol happ hi => simp [composeAndDispatch, happ, hi]

/-- One loop step from `DimsOnly` with a sound nested normalizer keeps `DimsOnly`, collecting an
expression with the operand's value, or appending a plain operand in a symbol position. -/
theorem DimsOnly.step {i : Nat} {t : Value} {s : AffineApplyNormalizer × List AffineExpr}
    (h : DimsOnly s) (hnested : NestedSound ir nested admissible t) :
    ∃ s', DispatchStep ir nested numDimsBeforeRewrite i t s s' ∧ DimsOnly s' ∧
      (∃ d, s'.1.reorderedDims = s.1.reorderedDims ++ d) ∧
      ((i < numDimsBeforeRewrite ∨ (ir.affineApplyOf t).isSome) ∧
          (∃ e, s'.2 = s.2 ++ [e] ∧ ∀ ρ, admissible ρ → s'.1.evalPositional ρ e = ρ t) ∧
          s'.1.concatenatedSymbols = s.1.concatenatedSymbols ∨
        ¬i < numDimsBeforeRewrite ∧ ir.affineApplyOf t = none ∧ s'.2 = s.2 ∧
          s'.1.concatenatedSymbols = s.1.concatenatedSymbols ++ [t]) := by
  obtain ⟨n, aux⟩ := s
  cases happ : ir.affineApplyOf t with
  | some p =>
    -- an `affine.apply` result: its nested normalizer is renumbered into this one
    obtain ⟨map, operands⟩ := p
    obtain ⟨other, e₀, hother, hr, hsyms, he₀, hvalid, heval⟩ := hnested map operands happ
    obtain ⟨renumbered, n', hren, -, -, -, hforall⟩ := h.reachable.coherent.renumber hr.coherent
    obtain ⟨e, he, -⟩ := forall₂_head?_left hforall he₀
    obtain ⟨hinv, hd, hs, hval⟩ := h.renumber hr hsyms he₀ hvalid hren he
    exact ⟨_, .compose happ hother hren he, hinv, hd,
      .inl ⟨.inr rfl, ⟨e, rfl, fun ρ hρ => (hval ρ).trans (heval ρ hρ)⟩, hs⟩⟩
  | none =>
    by_cases hi : i < numDimsBeforeRewrite
    · -- a plain operand in a dim position
      obtain ⟨hinv, hd, hs, hval⟩ := h.renumberOneDim t
      exact ⟨_, .dim happ hi, hinv, hd, .inl ⟨.inl hi, ⟨_, rfl, fun ρ _ => hval ρ⟩, hs⟩⟩
    · -- a plain operand in a symbol position
      exact ⟨_, .symbol happ hi, h.appendSymbol t, ⟨[], (List.append_nil _).symm⟩,
        .inr ⟨hi, rfl, rfl, rfl⟩⟩

/-- The composing loop with sound nested normalizers keeps `DimsOnly`, appends plain symbol-position
operands to the symbols, and collects the values of the other operands in order. -/
theorem composeAndDispatch_dimsOnly (l : List Value) :
    ∀ (i : Nat) (s : AffineApplyNormalizer × List AffineExpr), DimsOnly s →
      (∀ t ∈ l, NestedSound ir nested admissible t) →
      ∃ s', composeAndDispatch ir nested numDimsBeforeRewrite i l s = some s' ∧ DimsOnly s' ∧
        s'.1.concatenatedSymbols = s.1.concatenatedSymbols ++
          (l.drop (numDimsBeforeRewrite - i)).filter (fun t => (ir.affineApplyOf t).isNone) ∧
        ∀ ρ, admissible ρ → s'.2.map (s'.1.evalPositional ρ) = s.2.map (s.1.evalPositional ρ) ++
          (l.take (numDimsBeforeRewrite - i) ++
            (l.drop (numDimsBeforeRewrite - i)).filter fun t => (ir.affineApplyOf t).isSome).map ρ := by
  induction l with
  | nil => exact fun i s h _ => ⟨s, rfl, h, by simp, fun ρ _ => by simp⟩
  | cons t rest ih =>
    intro i s h hnested
    obtain ⟨s₁, hstep, h₁, ⟨d, hd⟩, hcase⟩ := @DimsOnly.step ir nested admissible
      numDimsBeforeRewrite i t s h (hnested t (List.mem_cons_self _ _))
    obtain ⟨s', hrun, h', hsyms, hvals⟩ :=
      ih (i + 1) s₁ h₁ fun u hu => hnested u (List.mem_cons_of_mem _ hu)
    have hk : numDimsBeforeRewrite - (i + 1) = numDimsBeforeRewrite - i - 1 := by omega
    refine ⟨s', (composeAndDispatch_of_step hstep).trans hrun, h', ?_, fun ρ hρ => ?_⟩
    · rw [hsyms, filter_drop_cons, hk]
      rcases hcase with ⟨hpos, -, hs⟩ | ⟨hi, happ, -, hs⟩
      · have : ¬(numDimsBeforeRewrite - i = 0 ∧ (ir.affineApplyOf t).isNone) := by
          rintro ⟨hz, hnone⟩
          rcases hpos with hi | hsome
          · omega
          · simp [Option.isNone_iff_eq_none.mp hnone] at hsome
        rw [hs, if_neg this, List.nil_append]
      · rw [hs, if_pos ⟨by omega, by simp [happ]⟩, List.append_assoc, List.singleton_append]
    · rw [hvals ρ hρ, take_append_filter_drop_cons, hk]
      rcases hcase with ⟨hpos, ⟨e, he, hval⟩, -⟩ | ⟨hi, happ, he, -⟩
      · have : numDimsBeforeRewrite - i ≠ 0 ∨ (ir.affineApplyOf t).isSome := by
          rcases hpos with hi | hsome
          · exact .inl (by omega)
          · exact .inr hsome
        rw [he, List.map_append, h.map_evalPositional hd, if_pos this]
        simp [hval ρ hρ]
      · rw [he, h.map_evalPositional hd, if_neg (by simp [happ]; omega), List.nil_append]

end Loop

/-- The loop without composition over dim-position operands keeps `DimsOnly` and the symbols and
collects expressions with the operands' values. -/
theorem dispatchOnly_dimsOnly {numDims : Nat} :
    ∀ (l : List Value) (i : Nat) (n : AffineApplyNormalizer) (aux : List AffineExpr),
      DimsOnly (n, aux) → i + l.length ≤ numDims →
      DimsOnly (dispatchOnly numDims i l (n, aux)) ∧
        (dispatchOnly numDims i l (n, aux)).1.concatenatedSymbols = n.concatenatedSymbols ∧
        ∀ ρ, (dispatchOnly numDims i l (n, aux)).2.map
            ((dispatchOnly numDims i l (n, aux)).1.evalPositional ρ) =
          aux.map (n.evalPositional ρ) ++ l.map ρ
  | [], i, n, aux, h, _ => ⟨h, rfl, fun ρ => by simp [dispatchOnly]⟩
  | t :: rest, i, n, aux, h, hlen => by
    have hi : i < numDims := by simp at hlen; omega
    obtain ⟨h₁, ⟨d, hd⟩, hs₁, hval⟩ := h.renumberOneDim t
    obtain ⟨h', hs', hvals⟩ :=
      @dispatchOnly_dimsOnly numDims rest (i + 1) _ _ h₁ (by simp at hlen ⊢; omega)
    simp only [dispatchOnly, if_pos hi]
    refine ⟨h', hs'.trans hs₁, fun ρ => ?_⟩
    rw [hvals ρ, List.map_append, h.map_evalPositional hd]
    simp [hval ρ]

/-- At depth 0, a well-formed symbol-free map with one operand per dim builds a reachable
symbol-free normalizer whose map has the original map's value. -/
theorem build_zero_sound (ir : IR) {map : AffineMap} {operands : List Value}
    (hwf : map.isWellFormed) (hsyms : map.numSymbols = 0) (hlen : operands.length = map.numDims) :
    ∃ N, build ir 0 map operands = some N ∧ Reachable N ∧ N.concatenatedSymbols = [] ∧
      ∀ ρ, N.affineMap.results.map (N.evalPositional ρ) = map.evalOn (operands.map ρ) := by
  obtain ⟨hinv, hs, hvals⟩ :=
    @dispatchOnly_dimsOnly map.numDims operands 0 empty [] DimsOnly.init (by omega)
  generalize hdo : dispatchOnly map.numDims 0 operands (empty, []) = s at hinv hs hvals
  obtain ⟨n, aux⟩ := s
  have haux : aux.length = map.numDims := by
    simpa [hlen] using congrArg List.length (hvals fun _ => 0)
  obtain ⟨N, hN, -, hsN, heval⟩ := finish_sound hwf haux.symm hinv.valid hinv.dims_nil
  refine ⟨N, ?_, hinv.reachable.finish hN, hsN.trans hs, fun ρ => ?_⟩
  · simp only [build, hsyms, Nat.sub_zero, List.drop_length, promoteComposedSymbolsAsDims,
      List.isEmpty_nil, if_true, Option.bind_eq_bind, Option.some_bind, hdo]
    exact hN
  · rw [heval ρ, hvals ρ, hs]
    simp

/-- A composing level with sound nested normalizers builds a reachable normalizer with a
well-formed map of the original value, whose symbols are the plain symbol-position operands. -/
theorem build_succ_sound {ir : IR} {admissible : (Value → Int) → Prop} {budget : Nat}
    {map : AffineMap} {operands : List Value} (hwf : map.isWellFormed)
    (hlen : operands.length = map.numInputs)
    (hnested : ∀ t ∈ operands, NestedSound ir (build ir budget) admissible t) :
    ∃ N, build ir (budget + 1) map operands = some N ∧ Reachable N ∧ N.affineMap.isWellFormed ∧
      N.concatenatedSymbols =
        (operands.drop map.numDims).filter (fun t => (ir.affineApplyOf t).isNone) ∧
      ∀ ρ, admissible ρ →
        N.affineMap.results.map (N.evalPositional ρ) = map.evalOn (operands.map ρ) := by
  have hdrop : operands.length - map.numSymbols = map.numDims := by
    simp [hlen, AffineMap.numInputs]
  obtain ⟨pm, hpm, hpwf, hpnd, -, hpeval⟩ := promoteComposedSymbolsAsDims_sound ir map
    (operands.drop map.numDims) hwf (by simp [hlen, AffineMap.numInputs])
  obtain ⟨⟨n, aux⟩, hloop, hinv, hs, hvals⟩ := @composeAndDispatch_dimsOnly ir (build ir budget)
    admissible map.numDims operands 0 (empty, []) DimsOnly.init hnested
  have haux : aux.length = pm.numDims := by
    have := composeAndDispatch_length operands 0 _ _ hloop
    simp only [List.length_nil, Nat.zero_add, Nat.sub_zero, List.length_take, hlen,
      AffineMap.numInputs] at this
    rw [this, hpnd]
    omega
  obtain ⟨N, hN, -, hsN, heval⟩ := finish_sound hpwf haux.symm hinv.valid hinv.dims_nil
  refine ⟨N, ?_, hinv.reachable.finish hN, finish_isWellFormed hN hpwf haux.ge hinv.loopInvariant,
    hsN.trans (by simpa using hs), fun ρ hρ => ?_⟩
  · simp only [build, hdrop, hpm, hloop, Option.bind_eq_bind, Option.some_bind]
    exact hN
  · -- the collected values are the dims, then the promoted symbols, then the other symbols
    calc N.affineMap.results.map (N.evalPositional ρ)
        = pm.evalOn (aux.map (n.evalPositional ρ) ++ n.concatenatedSymbols.map ρ) := heval ρ
      _ = pm.evalOn ((operands.take map.numDims).map ρ ++
            ((operands.drop map.numDims).filter fun t => (ir.affineApplyOf t).isSome).map ρ ++
            ((operands.drop map.numDims).filter fun t => (ir.affineApplyOf t).isNone).map ρ) := by
          rw [hvals ρ hρ, hs]
          simp
      _ = map.evalOn ((operands.take map.numDims).map ρ ++ (operands.drop map.numDims).map ρ) :=
          hpeval _ ρ (by simp [hlen, AffineMap.numInputs])
      _ = map.evalOn (operands.map ρ) := by rw [← List.map_append, List.take_append_drop]

/-! ## Every depth of the constructor -/

/-- A symbol-free normalizer built for a verified `affine.apply` and keeping its value is a sound
nested normalizer for its result. -/
theorem nestedSound_of_build {ir : IR} (hir : ir.affineAppliesVerified)
    (hwfs : ir.affineApplyMapsWellFormed) {budget : Nat} {t : Value} {map : AffineMap}
    {operands : List Value} (happ : ir.affineApplyOf t = some (map, operands))
    {N : AffineApplyNormalizer} (hN : build ir budget map operands = some N) (hr : Reachable N)
    (hsN : N.concatenatedSymbols = [])
    (heval : ∀ ρ, (∃ σ, ρ = ir.valueOf σ) →
      N.affineMap.results.map (N.evalPositional ρ) = map.evalOn (operands.map ρ)) :
    ∃ other e, build ir budget map operands = some other ∧ Reachable other ∧
      other.concatenatedSymbols = [] ∧ other.affineMap.results.head? = some e ∧
      e.isValidIn other.reorderedDims.length 0 ∧
      ∀ ρ, (∃ σ, ρ = ir.valueOf σ) → other.evalPositional ρ e = ρ t := by
  obtain ⟨hlen, -, -, -, hone⟩ := verifyAffineApply_eq_ok.mp (hir t map operands happ)
  obtain ⟨hnd, hns, hres⟩ := build_spec hlen hN
  have hwfN := build_isWellFormed hir hwfs budget map operands N (hwfs t map operands happ) hlen hN
  obtain ⟨e, rest, hresults⟩ := List.exists_cons_of_length_pos (by rw [hres, hone]; omega)
  refine ⟨N, e, hN, hr, hsN, by rw [hresults]; rfl, ?_, fun ρ hρ => ?_⟩
  · have := List.all_eq_true.mp hwfN e (by simp [hresults])
    rwa [hnd, hns, hsN] at this
  · obtain ⟨σ, rfl⟩ := hρ
    have := congrArg (List.headD · 0) (heval _ ⟨σ, rfl⟩)
    simp only [hresults, List.map_cons, List.headD_cons] at this
    rw [this, IR.valueOf_of_affineApplyOf happ]

/-- On a function whose `affine.apply`s are verified, well formed and symbol-free, the constructor
at every depth is a sound nested normalizer for every value. -/
theorem nestedSound_build {ir : IR} (hir : ir.affineAppliesVerified)
    (hwfs : ir.affineApplyMapsWellFormed) (hfree : ir.affineAppliesSymbolFree) :
    ∀ budget t, NestedSound ir (build ir budget) (fun ρ => ∃ σ, ρ = ir.valueOf σ) t
  | 0, t => fun map operands happ => by
    obtain ⟨hlen, -⟩ := verifyAffineApply_eq_ok.mp (hir t map operands happ)
    have hsyms := hfree t map operands happ
    obtain ⟨N, hN, hr, hsN, heval⟩ := build_zero_sound ir (hwfs t map operands happ) hsyms
      (by rw [hlen, AffineMap.numInputs, hsyms, Nat.add_zero])
    exact nestedSound_of_build hir hwfs happ hN hr hsN fun ρ _ => heval ρ
  | budget + 1, t => fun map operands happ => by
    obtain ⟨hlen, -⟩ := verifyAffineApply_eq_ok.mp (hir t map operands happ)
    obtain ⟨N, hN, hr, -, hsN, heval⟩ := build_succ_sound (hwfs t map operands happ) hlen
      fun u _ => nestedSound_build hir hwfs hfree budget u
    refine nestedSound_of_build hir hwfs happ hN hr ?_ heval
    rw [hsN, List.drop_of_length_le (by simp [hlen, AffineMap.numInputs, hfree t map operands happ]),
      List.filter_nil]

/-- On such a function, the normalizer of a well-formed map is built with a well-formed map of
one input per operand, and keeps the map's value under every assignment. -/
theorem new_sound {ir : IR} (hir : ir.affineAppliesVerified) (hwfs : ir.affineApplyMapsWellFormed)
    (hfree : ir.affineAppliesSymbolFree) {map : AffineMap} {operands : List Value}
    (hwf : map.isWellFormed) (hlen : operands.length = map.numInputs) :
    ∃ N, new ir map operands = some N ∧ N.affineMap.isWellFormed ∧
      N.getOperands.length = N.affineMap.numInputs ∧
      ∀ σ, N.affineMap.evalOn (N.getOperands.map (ir.valueOf σ)) =
        map.evalOn (operands.map (ir.valueOf σ)) := by
  obtain ⟨N, hN, -, hwfN, -, heval⟩ :=
    build_succ_sound hwf hlen fun t _ => nestedSound_build hir hwfs hfree 0 t
  obtain ⟨hnd, hns, -⟩ := build_spec hlen hN
  refine ⟨N, hN, hwfN, by simp [getOperands, AffineMap.numInputs, hnd, hns], fun σ => ?_⟩
  rw [evalOn_getOperands hwfN hnd, heval _ ⟨σ, rfl⟩]

end AffineApplyNormalizer

/-! ## Composition -/

/-- A value no `affine.apply` defines takes the assignment's value. -/
theorem IR.valueOf_of_affineApplyOf_none {ir : IR} {σ : Value → Int} {v : Value}
    (h : ir.affineApplyOf v = none) : ir.valueOf σ v = σ v := by
  rw [IR.valueOf, IR.fold_eq, h]
  rfl

/-- On a function whose `affine.apply`s are verified, well formed and symbol-free, composing a
well-formed map succeeds with a well-formed map and keeps its value under every assignment. -/
theorem composeAffineMapAndOperands_sound {ir : IR} (hir : ir.affineAppliesVerified)
    (hwfs : ir.affineApplyMapsWellFormed) (hfree : ir.affineAppliesSymbolFree) {map : AffineMap}
    {operands : List Value} (hwf : map.isWellFormed) (hlen : operands.length = map.numInputs) :
    ∃ map' operands', composeAffineMapAndOperands ir map operands = some (map', operands') ∧
      map'.isWellFormed ∧ operands'.length = map'.numInputs ∧
      ∀ σ, map'.evalOn (operands'.map (ir.valueOf σ)) = map.evalOn (operands.map (ir.valueOf σ)) := by
  obtain ⟨N, hN, hwfN, hlenN, heval⟩ := AffineApplyNormalizer.new_sound hir hwfs hfree hwf hlen
  obtain ⟨map', operands', hc, -, hcan, -, -, hsem⟩ :=
    canonicalizeMapAndOperands_spec ir N.affineMap N.getOperands hlenN
  obtain ⟨hwf', heval'⟩ := hsem hwfN
  refine ⟨map', operands', by simp [composeAffineMapAndOperands, hN, hc], hwf', hcan.length_eq,
    fun σ => ?_⟩
  rw [heval', heval]

/-- Loop induction variable `%i`, arguments `%N` and `%M`, `%b = affine.apply ()[s0] -> (s0)
()[%M]` and `%a = affine.apply (d0)[s0, s1] -> (d0 + s0 + s1 * 2) (%i)[%N, %b]` (values 0-4). -/
def nestedSymbolApply : IR :=
  ⟨[⟨true, false, none⟩, ⟨true, true, none⟩, ⟨true, true, none⟩,
    ⟨true, false, some (.affineApply ⟨0, 1, [.symbol 0]⟩ [2])⟩,
    ⟨true, false, some (.affineApply ⟨1, 2, [.binary .add (.binary .add (.dim 0) (.symbol 0))
      (.binary .mul (.symbol 1) (.constant 2))]⟩ [0, 1, 3])⟩], by decide⟩

/-- Without the hypothesis on symbols, composing `(d0) -> (d0)` over `%a` swaps `%N` and `%b`
one level down, giving `2` where `%a` is `1`. -/
example :
    nestedSymbolApply.affineAppliesVerified ∧ nestedSymbolApply.affineApplyMapsWellFormed ∧
      composeAffineMapAndOperands nestedSymbolApply ⟨1, 0, [.dim 0]⟩ [4] =
        some (⟨1, 2, [.binary .add (.binary .add (.dim 0) (.symbol 0))
          (.binary .mul (.symbol 1) (.constant 2))]⟩, [0, 3, 1]) ∧
      (⟨1, 2, [.binary .add (.binary .add (.dim 0) (.symbol 0))
          (.binary .mul (.symbol 1) (.constant 2))]⟩ : AffineMap).evalOn
          ([0, 3, 1].map (nestedSymbolApply.valueOf argumentNIsOne)) = [2] ∧
      (⟨1, 0, [.dim 0]⟩ : AffineMap).evalOn ([4].map (nestedSymbolApply.valueOf argumentNIsOne)) =
        [1] :=
  ⟨by decide, by decide, by decide, by decide, by decide⟩

/-- On such a function, full composition with enough iterations ends with a well-formed map of as
many results over leaves among the operands and their `affine.apply`s' operands, keeping values. -/
theorem fullyComposeAffineMapAndOperands_spec_of_symbolFree {ir : IR}
    (hir : ir.affineAppliesVerified) (hwfs : ir.affineApplyMapsWellFormed)
    (hfree : ir.affineAppliesSymbolFree) (fuel : Nat) :
    ∀ {map : AffineMap} {operands : List Value}, map.isWellFormed →
      operands.length = map.numInputs → maxApplyHeight ir operands ≤ fuel →
      ∃ map' operands', fullyComposeAffineMapAndOperands ir fuel map operands =
          .composed map' operands' ∧ map'.results.length = map.results.length ∧
        map'.isWellFormed ∧ operands'.length = map'.numInputs ∧
        (∀ v ∈ operands', ir.affineApplyOf v = none ∧
          (v ∈ operands ∨ ∃ t m ops, ir.affineApplyOf t = some (m, ops) ∧ v ∈ ops)) ∧
        ∀ σ, map'.evalOn (operands'.map σ) = map.evalOn (operands.map (ir.valueOf σ)) := by
  -- with no `affine.apply` operand the loop exits, and each operand takes its leaf value
  have hexit : ∀ {fuel : Nat} {map : AffineMap} {operands : List Value}, map.isWellFormed →
      operands.length = map.numInputs → ¬(operands.any fun v => (ir.affineApplyOf v).isSome) →
      ∃ map' operands', fullyComposeAffineMapAndOperands ir fuel map operands =
          .composed map' operands' ∧ map'.results.length = map.results.length ∧
        map'.isWellFormed ∧ operands'.length = map'.numInputs ∧
        (∀ v ∈ operands', ir.affineApplyOf v = none ∧
          (v ∈ operands ∨ ∃ t m ops, ir.affineApplyOf t = some (m, ops) ∧ v ∈ ops)) ∧
        ∀ σ, map'.evalOn (operands'.map σ) = map.evalOn (operands.map (ir.valueOf σ)) := by
    intro fuel map operands hwf hlen hany
    have hleaves : ∀ v ∈ operands, ir.affineApplyOf v = none := by simpa using hany
    refine ⟨map, operands, fullyComposeAffineMapAndOperands_of_not_any hany, rfl, hwf, hlen,
      fun v hv => ⟨hleaves v hv, .inl hv⟩, fun σ => ?_⟩
    rw [List.map_congr_left fun v hv => IR.valueOf_of_affineApplyOf_none (hleaves v hv)]
  induction fuel with
  | zero =>
    intro map operands hwf hlen hfuel
    refine hexit hwf hlen fun hany => ?_
    obtain ⟨t, ht, happ⟩ := List.any_eq_true.mp hany
    obtain ⟨⟨m, ops⟩, hp⟩ := Option.isSome_iff_exists.mp happ
    have := Nat.lt_of_lt_of_le (IR.applyHeight_pos hp) (applyHeight_le_maxApplyHeight ht)
    omega
  | succ fuel ih =>
    intro map operands hwf hlen hfuel
    by_cases hany : operands.any fun v => (ir.affineApplyOf v).isSome
    · -- one composition, then the loop on a lower chain
      obtain ⟨map', operands', hc, hwf', hlen', heval⟩ :=
        composeAffineMapAndOperands_sound hir hwfs hfree hwf hlen
      obtain ⟨-, -, -, hres, -⟩ := composeAffineMapAndOperands_spec hlen hc
      have hmem := composeAffineMapAndOperands_mem hlen hc
      have hlower := composeAffineMapAndOperands_maxApplyHeight_lt hlen hc hany
      obtain ⟨map'', operands'', hloop, hres', hwf'', hlen'', hleaves, heval'⟩ :=
        ih hwf' hlen' (by omega)
      refine ⟨map'', operands'', ?_, hres'.trans hres, hwf'', hlen'',
        fun v hv => ⟨(hleaves v hv).1, ?_⟩, fun σ => (heval' σ).trans (heval σ)⟩
      · rw [fullyComposeAffineMapAndOperands_succ hany, hc]
        exact hloop
      · rcases (hleaves v hv).2 with hv' | hfar
        · rcases hmem v hv' with ⟨hv'', -⟩ | ⟨t, -, m, ops, ht, hvo⟩
          · exact .inl hv''
          · exact .inr ⟨t, m, ops, ht, hvo⟩
        · exact .inr hfar
    · exact hexit hwf hlen hany

/-- Loop induction variable `%i`, argument `%N`, `%a = affine.apply (d0) -> (d0 + 1) (%i)` and
`%b = affine.apply (d0) -> (d0 * 2) (%a)` (values 0-3). -/
def dimApplyChain : IR :=
  ⟨[⟨true, false, none⟩, ⟨true, true, none⟩,
    ⟨true, false, some (.affineApply ⟨1, 0, [.binary .add (.dim 0) (.constant 1)]⟩ [0])⟩,
    ⟨true, false, some (.affineApply ⟨1, 0, [.binary .mul (.dim 0) (.constant 2)]⟩ [2])⟩],
    by decide⟩

/-- `SimplifyAffineApply` keeps value on such a function: it never meets a null, and the
replacement's map takes the rewritten `affine.apply`'s value under every assignment. -/
theorem simplifyAffineApply_keeps_value {ir : IR} (hir : ir.affineAppliesVerified)
    (hwfs : ir.affineApplyMapsWellFormed) (hfree : ir.affineAppliesSymbolFree) {v : Value}
    {map : AffineMap} {operands : List Value} (happ : ir.affineApplyOf v = some (map, operands)) :
    ∃ r, simplifyAffineApply ir map operands = some r ∧
      ∀ newMap newOperands, r = .replaced newMap newOperands →
        ∀ σ, newMap.evalOn (newOperands.map (ir.valueOf σ)) = [ir.valueOf σ v] := by
  obtain ⟨hlen, -, -, -, hone⟩ := verifyAffineApply_eq_ok.mp (hir v map operands happ)
  obtain ⟨map', operands', hc, -, -, heval⟩ :=
    composeAffineMapAndOperands_sound hir hwfs hfree (hwfs v map operands happ) hlen
  refine ⟨if map' = map then .matchFailure else .replaced map' operands', ?_,
    fun newMap newOperands hr σ => ?_⟩
  · simp only [simplifyAffineApply, hc, Option.bind_eq_bind, Option.some_bind]
    split_ifs <;> rfl
  · split at hr
    · cases hr
    · cases hr
      obtain ⟨e, he⟩ := List.length_eq_one.mp hone
      rw [heval σ, IR.valueOf_of_affineApplyOf happ]
      simp [AffineMap.evalOn, he]

/-- `SimplifyAffineApply` on `%b = affine.apply (d0) -> (d0 * 2) (%a)` in `dimApplyChain`. -/
theorem simplifyAffineApply_keeps_value_dimApplyChain :
    dimApplyChain.affineAppliesVerified ∧ dimApplyChain.affineApplyMapsWellFormed ∧
      dimApplyChain.affineAppliesSymbolFree ∧
      dimApplyChain.affineApplyOf 3 = some (⟨1, 0, [.binary .mul (.dim 0) (.constant 2)]⟩, [2]) ∧
      ∃ r, simplifyAffineApply dimApplyChain ⟨1, 0, [.binary .mul (.dim 0) (.constant 2)]⟩ [2] =
          some r ∧ ∀ newMap newOperands, r = .replaced newMap newOperands →
        ∀ σ, newMap.evalOn (newOperands.map (dimApplyChain.valueOf σ)) = [dimApplyChain.valueOf σ 3] :=
  ⟨by decide, by decide, by decide, rfl,
    simplifyAffineApply_keeps_value (by decide) (by decide) (by decide) rfl⟩

end Mlir
