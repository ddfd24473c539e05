import MlirCore.Affine.Normalizer

/-!
# The normalizer's coordinate system

Dim `i` of a normalizer's map stands for `reorderedDims[i]`, and `dimValueToPosition` maps each
such value back to `i`. `Coherent` says the dims are distinct and their positions count up from
`0`; `renumberOneDim` and every step of the constructor keep it, so every normalizer built is
coherent. Read in these coordinates, `renumber` is exact: the renumbered first result has the
value of the nested normalizer's first result in its own coordinates, whenever that result uses
only positions the nested normalizer has.
-/

namespace Mlir

namespace AffineApplyNormalizer

/-- The coordinate system is consistent: the dims are distinct, and the position recorded for
the `k`-th of them is `k`. -/
structure Coherent (n : AffineApplyNormalizer) : Prop where
  nodup : n.reorderedDims.Nodup
  positions : n.dimValueToPosition.map Prod.snd = List.range n.reorderedDims.length

/-- An expression read in a normalizer's coordinates: dim `i` takes the value of
`reorderedDims[i]` and symbol `j` that of `concatenatedSymbols[j]`. -/
def evalPositional (n : AffineApplyNormalizer) (ρ : Value → Int) (e : AffineExpr) : Int :=
  e.eval (fun i => (n.reorderedDims.map ρ).getD i 0) fun j => (n.concatenatedSymbols.map ρ).getD j 0

/-- In an association list with distinct keys whose positions count up from `a`, a key's
position is `a` plus its index among the keys. -/
theorem lookup_eq_some_of_positions :
    ∀ (p : List (Value × Nat)) (a : Nat), (p.map Prod.fst).Nodup →
      p.map Prod.snd = List.range' a p.length →
      ∀ v j, p.lookup v = some j ↔ a ≤ j ∧ (p.map Prod.fst)[j - a]? = some v
  | [], _, _, _, v, j => by simp
  | (x, b) :: p, a, hnd, hpos, v, j => by
    simp only [List.map_cons, List.length_cons, List.range'_succ, List.cons.injEq] at hnd hpos ⊢
    obtain ⟨rfl, hpos⟩ := hpos
    obtain ⟨hx, hnd⟩ := List.nodup_cons.mp hnd
    have ih := lookup_eq_some_of_positions p (b + 1) hnd hpos v j
    rw [List.lookup_cons]
    by_cases hv : v = x
    · -- the head key: its position is `b`, and it appears nowhere else
      subst hv
      simp only [beq_self_eq_true, Option.some.injEq]
      constructor
      · rintro rfl
        simp
      · rintro ⟨hle, hget⟩
        by_contra hne
        obtain ⟨k, hk⟩ : ∃ k, j - b = k + 1 := ⟨j - b - 1, by omega⟩
        rw [hk, List.getElem?_cons_succ] at hget
        exact hx (List.getElem?_mem hget)
    · -- another key: found in the tail, one position further
      simp only [beq_false_of_ne hv, ih]
      constructor
      · rintro ⟨hle, hget⟩
        refine ⟨by omega, ?_⟩
        rw [show j - b = j - (b + 1) + 1 by omega, List.getElem?_cons_succ]
        exact hget
      · rintro ⟨hle, hget⟩
        rcases Nat.eq_or_lt_of_le hle with rfl | hlt
        · simp only [Nat.sub_self, List.getElem?_cons_zero, Option.some.injEq] at hget
          exact absurd hget.symm hv
        · rw [show j - b = j - (b + 1) + 1 by omega, List.getElem?_cons_succ] at hget
          exact ⟨hlt, hget⟩

/-- In a coherent normalizer, `dimValueToPosition` maps exactly `reorderedDims[i]` to `i`. -/
theorem Coherent.lookup_eq_some_iff {n : AffineApplyNormalizer} (h : n.Coherent) (v : Value)
    (i : Nat) : n.dimValueToPosition.lookup v = some i ↔ n.reorderedDims[i]? = some v := by
  have hlen : n.dimValueToPosition.length = n.reorderedDims.length := dimValueToPosition_length n
  have := lookup_eq_some_of_positions n.dimValueToPosition 0 (n.keys ▸ h.nodup)
    (by rw [h.positions, hlen, List.range_eq_range']) v i
  simpa [n.keys] using this

/-- A normalizer with the same dims as a coherent one is coherent. -/
theorem Coherent.of_dims {n n' : AffineApplyNormalizer} (h : n.Coherent)
    (hdims : n'.reorderedDims = n.reorderedDims) (hpos : n'.dimValueToPosition = n.dimValueToPosition) :
    n'.Coherent :=
  ⟨hdims ▸ h.nodup, by rw [hdims, hpos, h.positions]⟩

/-- The constructor starts from no dims. -/
theorem empty_coherent : empty.Coherent := ⟨List.nodup_nil, rfl⟩

/-- `renumberOneDim` returns the dim at `v`'s position, appends `v` only if it is new, leaves
the symbols alone and keeps the normalizer coherent. -/
theorem Coherent.renumberOneDim {n : AffineApplyNormalizer} (h : n.Coherent) (v : Value) :
    (n.renumberOneDim v).2.Coherent ∧
      (∃ i, (n.renumberOneDim v).1 = .dim i ∧ (n.renumberOneDim v).2.reorderedDims[i]? = some v) ∧
      (n.renumberOneDim v).2.reorderedDims =
        (if v ∈ n.reorderedDims then n.reorderedDims else n.reorderedDims ++ [v]) ∧
      (n.renumberOneDim v).2.concatenatedSymbols = n.concatenatedSymbols := by
  unfold AffineApplyNormalizer.renumberOneDim
  split
  · -- already a dim: nothing changes
    rename_i position hpos
    have hget := (h.lookup_eq_some_iff v position).mp hpos
    exact ⟨h, ⟨position, rfl, hget⟩, by simp [List.getElem?_mem hget], rfl⟩
  · -- a new dim: appended at the next position
    rename_i hnone
    have hnot : v ∉ n.reorderedDims := fun hv => by
      obtain ⟨i, hi⟩ := List.mem_iff_getElem?.mp hv
      rw [(h.lookup_eq_some_iff v i).mpr hi] at hnone
      exact Option.some_ne_none _ hnone
    have hlen : n.dimValueToPosition.length = n.reorderedDims.length := dimValueToPosition_length n
    refine ⟨⟨?_, ?_⟩, ⟨n.dimValueToPosition.length, rfl, by simp [hlen]⟩, by simp [hnot], rfl⟩
    · exact h.nodup.append (List.nodup_singleton v)
        fun w hw hw' => hnot ((List.mem_singleton.mp hw') ▸ hw)
    · simp [h.positions, hlen, List.range_succ]

/-- Entry `position` of a remapping as long as `position` is appended. -/
theorem setRemapping_length (remapping : List (Option AffineExpr)) (e : AffineExpr) :
    setRemapping remapping remapping.length e = remapping ++ [some e] := by
  simp [setRemapping]

/-- `renumber`'s loop from `other`'s dim `k` on keeps this normalizer coherent, only appends dims,
and records for each position a dim that now holds `other`'s dim there. -/
theorem renumberDims_coherent {other : AffineApplyNormalizer} (hother : other.Coherent) :
    ∀ (l : List Value) (k : Nat) (r : List (Option AffineExpr)) (n : AffineApplyNormalizer),
      other.reorderedDims.drop k = l → k ≤ other.reorderedDims.length → r.length = k →
      n.Coherent →
      (∀ j < k, ∃ i, r[j]? = some (some (.dim i)) ∧ n.reorderedDims[i]? = other.reorderedDims[j]?) →
      ∃ r' n', renumberDims other l (r, n) = some (r', n') ∧ n'.Coherent ∧
        r'.length = other.reorderedDims.length ∧
        (∀ j < other.reorderedDims.length, ∃ i, r'[j]? = some (some (.dim i)) ∧
          n'.reorderedDims[i]? = other.reorderedDims[j]?) ∧
        (∃ t, n'.reorderedDims = n.reorderedDims ++ t) ∧
        n'.concatenatedSymbols = n.concatenatedSymbols
  | [], k, r, n, hl, hk, hr, hn, hrec => by
    have hk' : k = other.reorderedDims.length := by
      have := List.drop_eq_nil_iff.mp hl
      omega
    subst hk'
    exact ⟨r, n, rfl, hn, hr, hrec, ⟨[], by simp⟩, rfl⟩
  | v :: rest, k, r, n, hl, hk, hr, hn, hrec => by
    have hget : other.reorderedDims[k]? = some v := by
      rw [← Nat.add_zero k, ← List.getElem?_drop, hl, List.getElem?_cons_zero]
    have hrest : other.reorderedDims.drop (k + 1) = rest := by
      rw [← List.drop_drop, hl, List.drop_one, List.tail_cons]
    have hlt : k < other.reorderedDims.length := (List.getElem?_eq_some_iff.mp hget).1
    have hlookup := (hother.lookup_eq_some_iff v k).mpr hget
    obtain ⟨hn₁, ⟨i, he, hi⟩, hdims₁, hsyms₁⟩ := hn.renumberOneDim v
    rcases hone : n.renumberOneDim v with ⟨e, n₁⟩
    rw [hone] at hn₁ he hi hdims₁ hsyms₁
    dsimp only at hn₁ he hi hdims₁ hsyms₁
    subst he
    have hext : ∃ t, n₁.reorderedDims = n.reorderedDims ++ t := by
      rw [hdims₁]
      split
      · exact ⟨[], by simp⟩
      · exact ⟨[v], rfl⟩
    obtain ⟨t, ht⟩ := hext
    have hrec₁ : ∀ j < k + 1, ∃ i', (r ++ [some (.dim i)])[j]? = some (some (.dim i')) ∧
        n₁.reorderedDims[i']? = other.reorderedDims[j]? := by
      intro j hj
      rcases Nat.lt_succ_iff_lt_or_eq.mp hj with hj | rfl
      · -- an earlier position keeps its dim, which the appended dims do not move
        obtain ⟨i', hr', hi'⟩ := hrec j hj
        have hi'lt : i' < n.reorderedDims.length := by
          rw [List.getElem?_eq_getElem (show j < other.reorderedDims.length by omega)] at hi'
          exact (List.getElem?_eq_some_iff.mp hi').1
        exact ⟨i', by rw [List.getElem?_append_left (by omega), hr'],
          by rw [ht, List.getElem?_append_left hi'lt, hi']⟩
      · -- position `k` holds the dim `renumberOneDim` returned
        exact ⟨i, by simp [hr], hi.trans hget.symm⟩
    obtain ⟨r', n', hloop, hn', hlen', hrec', ⟨t', ht'⟩, hsyms'⟩ :=
      renumberDims_coherent hother rest (k + 1) (r ++ [some (.dim i)]) n₁ hrest hlt
        (by simp [hr]) hn₁ hrec₁
    refine ⟨r', n', ?_, hn', hlen', hrec', ⟨t ++ t', by rw [ht', ht, List.append_assoc]⟩,
      hsyms'.trans hsyms₁⟩
    simp only [renumberDims, hlookup, Option.bind_eq_bind, Option.some_bind, hone]
    rw [← hr, setRemapping_length]
    exact hloop

/-- After `renumber`'s loop every dim position of `other` is remapped, so no entry is null. -/
theorem remapping_ne_none {other : AffineApplyNormalizer} {r : List (Option AffineExpr)}
    {n : AffineApplyNormalizer} (hlen : r.length = other.reorderedDims.length)
    (hrec : ∀ j < other.reorderedDims.length, ∃ i, r[j]? = some (some (.dim i)) ∧
      n.reorderedDims[i]? = other.reorderedDims[j]?) :
    ∀ x ∈ r, x ≠ none := by
  intro x hx
  obtain ⟨j, hj⟩ := List.mem_iff_getElem?.mp hx
  obtain ⟨i, hi, -⟩ := hrec j (hlen ▸ (List.getElem?_eq_some_iff.mp hj).1)
  rw [hi, Option.some.injEq] at hj
  exact hj ▸ Option.some_ne_none _

/-- `renumber` of coherent normalizers succeeds, keeps coherence, appends dims and `other`'s
symbols, and rewrites each in-range result of `other` into one of the same value here. -/
theorem Coherent.renumber {n other : AffineApplyNormalizer} (hn : n.Coherent)
    (hother : other.Coherent) :
    ∃ map n', n.renumber other = some (map, n') ∧ n'.Coherent ∧
      (∃ t, n'.reorderedDims = n.reorderedDims ++ t) ∧
      n'.concatenatedSymbols = n.concatenatedSymbols ++ other.concatenatedSymbols ∧
      List.Forall₂ (fun e e' =>
        e.isValidIn other.reorderedDims.length other.concatenatedSymbols.length →
          e'.isValidIn n'.reorderedDims.length n'.concatenatedSymbols.length ∧
          ∀ ρ, n'.evalPositional ρ e' = other.evalPositional ρ e)
        other.affineMap.results map.results := by
  obtain ⟨r, n₁, hloop, hn₁, hlen, hrec, hdims, hsyms⟩ :=
    renumberDims_coherent hother other.reorderedDims 0 [] n rfl (Nat.zero_le _) rfl hn
      fun j hj => absurd hj (Nat.not_lt_zero j)
  let symRemapping := (List.range other.concatenatedSymbols.length).map fun idx =>
    some (AffineExpr.symbol (idx + n₁.concatenatedSymbols.length))
  have hsub : (other.affineMap.replaceDimsAndSymbols r symRemapping r.length
      symRemapping.length).isSome :=
    AffineMap.replaceDimsAndSymbols_isSome
      (fun _ _ i _ => AffineMap.getD_ne_none_of_forall (remapping_ne_none hlen hrec) i _)
      (fun _ _ j _ => AffineMap.getD_ne_none_of_forall (by simp [symRemapping]) j _)
  obtain ⟨map, hmap⟩ := Option.isSome_iff_exists.mp hsub
  refine ⟨map, { n₁ with concatenatedSymbols := n₁.concatenatedSymbols ++ other.concatenatedSymbols },
    ?_, hn₁.of_dims rfl rfl, hdims, by rw [hsyms], ?_⟩
  · simp only [AffineApplyNormalizer.renumber, hloop, Option.bind_eq_bind, Option.some_bind]
    change Option.bind (other.affineMap.replaceDimsAndSymbols r symRemapping r.length
      symRemapping.length) _ = _
    rw [hmap]
    rfl
  · obtain ⟨results, hrs, rfl⟩ := AffineMap.replaceDimsAndSymbols_eq_some.mp hmap
    refine hrs.imp fun {e e'} hrep hvalid => ?_
    obtain ⟨hd, hs⟩ := AffineExpr.isValidIn_iff.mp hvalid
    -- dim `i` of `other` is remapped to a dim of this normalizer holding the same value
    have hdim : ∀ i, e.usesDim i → ∃ k, r.getD i (some (.dim i)) = some (.dim k) ∧
        n₁.reorderedDims[k]? = other.reorderedDims[i]? := fun i hi => by
      obtain ⟨k, hk, hkv⟩ := hrec i (hd i hi)
      exact ⟨k, by rw [List.getD_eq_getElem?_getD, hk, Option.getD_some], hkv⟩
    -- symbol `j` of `other` is shifted past this normalizer's own symbols
    have hsym : ∀ j, e.usesSymbol j → symRemapping.getD j (some (.symbol j)) =
        some (.symbol (j + n₁.concatenatedSymbols.length)) := fun j hj => by
      simp only [symRemapping, List.getD_eq_getElem?_getD, List.getElem?_map,
        List.getElem?_range (hs j hj), Option.map_some', Option.getD_some]
    refine ⟨AffineExpr.isValidIn_of_replaceDimsAndSymbols hrep (fun i hi r' hr' => ?_)
      fun j hj r' hr' => ?_, fun ρ => ?_⟩
    · obtain ⟨k, hk, hkv⟩ := hdim i hi
      rw [hk, Option.some.injEq] at hr'
      subst hr'
      have hlt := (List.getElem?_eq_some_iff.mp (hkv.trans
        (List.getElem?_eq_getElem (hd i hi)))).1
      simpa [AffineExpr.isValidIn] using hlt
    · rw [hsym j hj, Option.some.injEq] at hr'
      subst hr'
      have := hs j hj
      simp only [AffineExpr.isValidIn, List.length_append, decide_eq_true_eq]
      omega
    · rw [evalPositional, AffineExpr.eval_replaceDimsAndSymbols hrep, evalPositional]
      refine AffineExpr.eval_congr (fun i hi => ?_) fun j hj => ?_
      · obtain ⟨k, hk, hkv⟩ := hdim i hi
        simp only [AffineExpr.replacementValue, hk, Option.map_some', Option.getD_some,
          AffineExpr.eval, List.getD_eq_getElem?_getD, List.getElem?_map, hkv]
      · simp only [AffineExpr.replacementValue, hsym j hj, Option.map_some', Option.getD_some,
          AffineExpr.eval, List.getD_eq_getElem?_getD, List.getElem?_map, List.getElem?_append_right
            (Nat.le_add_left _ _), Nat.add_sub_cancel]

/-- Related lists have related first elements. -/
theorem forall₂_head? {α β : Type} {R : α → β → Prop} {l : List α} {l' : List β} {b : β}
    (h : List.Forall₂ R l l') (hb : l'.head? = some b) : ∃ a, l.head? = some a ∧ R a b := by
  cases h with
  | nil => cases hb
  | cons hab _ => exact ⟨_, rfl, Option.some.inj hb ▸ hab⟩

/-- Related lists have related first elements, found from the left. -/
theorem forall₂_head?_left {α β : Type} {R : α → β → Prop} {l : List α} {l' : List β} {a : α}
    (h : List.Forall₂ R l l') (ha : l.head? = some a) : ∃ b, l'.head? = some b ∧ R a b := by
  cases h with
  | nil => cases ha
  | cons hab _ => exact ⟨_, rfl, Option.some.inj ha ▸ hab⟩

/-! ## Reachable states

The constructor changes a normalizer only through `renumberOneDim`, appending a symbol,
`renumber` with a nested normalizer, and setting the map. The states these transitions reach
from the empty normalizer are coherent, and every normalizer the constructor builds is one of
them.
-/

/-- The states a normalizer can reach from the empty one through the constructor's own
transitions; `renumber` takes a nested normalizer that is itself reachable. -/
inductive Reachable : AffineApplyNormalizer → Prop
  | init : Reachable empty
  | renumberOneDim {n : AffineApplyNormalizer} (v : Value) :
      Reachable n → Reachable (n.renumberOneDim v).2
  | appendSymbol {n : AffineApplyNormalizer} (t : Value) :
      Reachable n → Reachable { n with concatenatedSymbols := n.concatenatedSymbols ++ [t] }
  | renumber {n other n' : AffineApplyNormalizer} {map : AffineMap} :
      Reachable n → Reachable other → n.renumber other = some (map, n') → Reachable n'
  | setAffineMap {n : AffineApplyNormalizer} (map : AffineMap) :
      Reachable n → Reachable { n with affineMap := map }

/-- Every reachable state is coherent: each transition keeps the coordinate system. -/
theorem Reachable.coherent {n : AffineApplyNormalizer} (h : Reachable n) : n.Coherent := by
  induction h with
  | init => exact empty_coherent
  | renumberOneDim v _ ih => exact (ih.renumberOneDim v).1
  | appendSymbol t _ ih => exact ih.of_dims rfl rfl
  | renumber _ _ hren ihn ihother =>
    obtain ⟨map, n', hren', hc, -⟩ := ihn.renumber ihother
    rw [hren, Option.some.injEq, Prod.mk.injEq] at hren'
    exact hren'.2 ▸ hc
  | setAffineMap map _ ih => exact ih.of_dims rfl rfl

/-- The auxiliary expressions collected so far are valid in the normalizer's coordinates, and the
normalizer is reachable. -/
structure LoopInvariant (s : AffineApplyNormalizer × List AffineExpr) : Prop where
  reachable : Reachable s.1
  valid : ∀ e ∈ s.2, e.isValidIn s.1.reorderedDims.length s.1.concatenatedSymbols.length

/-- Growing the coordinate system keeps the collected expressions valid. -/
theorem LoopInvariant.grow {n n' : AffineApplyNormalizer} {aux : List AffineExpr}
    (h : LoopInvariant (n, aux)) (hr : Reachable n')
    (hd : n.reorderedDims.length ≤ n'.reorderedDims.length)
    (hs : n.concatenatedSymbols.length ≤ n'.concatenatedSymbols.length) :
    LoopInvariant (n', aux) :=
  ⟨hr, fun e he => AffineExpr.isValidIn_mono (h.valid e he) hd hs⟩

/-- Renumbering a dim keeps the invariant and collects a valid expression. -/
theorem LoopInvariant.renumberOneDim {n : AffineApplyNormalizer} {aux : List AffineExpr}
    (h : LoopInvariant (n, aux)) (v : Value) :
    LoopInvariant ((n.renumberOneDim v).2, aux ++ [(n.renumberOneDim v).1]) := by
  obtain ⟨-, ⟨i, he, hi⟩, hdims, hsyms⟩ := h.reachable.coherent.renumberOneDim v
  have hgrow := h.grow (.renumberOneDim v h.reachable) (by rw [hdims]; split <;> simp)
    (by rw [hsyms])
  refine ⟨hgrow.reachable, fun e he' => ?_⟩
  rcases List.mem_append.mp he' with he' | he'
  · exact hgrow.valid e he'
  · rw [List.mem_singleton.mp he', he]
    simpa [AffineExpr.isValidIn] using (List.getElem?_eq_some_iff.mp hi).1

/-- Appending a symbol keeps the invariant. -/
theorem LoopInvariant.appendSymbol {n : AffineApplyNormalizer} {aux : List AffineExpr}
    (h : LoopInvariant (n, aux)) (t : Value) :
    LoopInvariant ({ n with concatenatedSymbols := n.concatenatedSymbols ++ [t] }, aux) :=
  h.grow (.appendSymbol t h.reachable) le_rfl (by simp)

/-- The loop without composition keeps the invariant. -/
theorem LoopInvariant.dispatchOnly {numDims : Nat} :
    ∀ (i : Nat) (l : List Value) (s : AffineApplyNormalizer × List AffineExpr),
      LoopInvariant s → LoopInvariant (dispatchOnly numDims i l s)
  | _, [], _, h => h
  | i, t :: rest, (n, aux), h => by
    unfold AffineApplyNormalizer.dispatchOnly
    split
    · exact LoopInvariant.dispatchOnly (i + 1) rest _ (h.renumberOneDim t)
    · exact LoopInvariant.dispatchOnly (i + 1) rest _ (h.appendSymbol t)

section Dispatch

variable {ir : IR} {nested : AffineMap → List Value → Option AffineApplyNormalizer}
  {numDimsBeforeRewrite : Nat}

/-- One step of the composing loop keeps the invariant when every nested normalizer is
reachable and its first result is valid in its coordinates. -/
theorem DispatchStep.loopInvariant {i : Nat} {t : Value}
    {s s' : AffineApplyNormalizer × List AffineExpr}
    (hstep : DispatchStep ir nested numDimsBeforeRewrite i t s s')
    (hnested : ∀ map operands other, ir.affineApplyOf t = some (map, operands) →
      nested map operands = some other → Reachable other ∧
        ∀ e ∈ other.affineMap.results.head?,
          e.isValidIn other.reorderedDims.length other.concatenatedSymbols.length)
    (h : LoopInvariant s) : LoopInvariant s' := by
  cases hstep with
  | @compose n n' other aux map renumberedMap operands e happ hother hren he =>
    obtain ⟨hr, hhead⟩ := hnested _ _ _ happ hother
    obtain ⟨map', n'', hren', -, ⟨d, hd⟩, hs, hforall⟩ := h.reachable.coherent.renumber hr.coherent
    rw [hren, Option.some.injEq, Prod.mk.injEq] at hren'
    obtain ⟨rfl, rfl⟩ := hren'
    have hgrow := h.grow (.renumber h.reachable hr hren) (by simp [hd]) (by simp [hs])
    refine ⟨hgrow.reachable, fun e' he' => ?_⟩
    rcases List.mem_append.mp he' with he' | he'
    · exact hgrow.valid e' he'
    · -- the nested first result, renumbered
      rw [List.mem_singleton.mp he']
      obtain ⟨e₀, he₀, hrel⟩ := forall₂_head? hforall he
      exact (hrel (hhead e₀ he₀)).1
  | dim happ hi => exact h.renumberOneDim t
  | symbol happ hi => exact h.appendSymbol t

/-- One step of the composing loop is a transition when every nested normalizer is reachable. -/
theorem DispatchStep.reachable {i : Nat} {t : Value} {s s' : AffineApplyNormalizer × List AffineExpr}
    (hstep : DispatchStep ir nested numDimsBeforeRewrite i t s s')
    (hnested : ∀ map operands other, nested map operands = some other → Reachable other)
    (h : Reachable s.1) : Reachable s'.1 := by
  cases hstep with
  | compose _ hother hren _ => exact .renumber h (hnested _ _ _ hother) hren
  | dim => exact .renumberOneDim t h
  | symbol => exact .appendSymbol t h

/-- A step collects one expression, except for a plain operand in a symbol position. -/
theorem DispatchStep.length_eq {i : Nat} {t : Value} {s s' : AffineApplyNormalizer × List AffineExpr}
    (hstep : DispatchStep ir nested numDimsBeforeRewrite i t s s') :
    s'.2.length + (if numDimsBeforeRewrite - i = 0 ∧ (ir.affineApplyOf t).isNone then 1 else 0) =
      s.2.length + 1 := by
  cases hstep with
  | compose happ => simp [happ]
  | dim _ hi => simp [show numDimsBeforeRewrite - i ≠ 0 by omega]
  | symbol happ hi => simp [happ, show numDimsBeforeRewrite - i = 0 by omega]

/-- A run of the composing loop keeps every property of the states that each step keeps. -/
theorem composeAndDispatch_invariant (P : AffineApplyNormalizer × List AffineExpr → Prop)
    (hstep : ∀ i t s s', DispatchStep ir nested numDimsBeforeRewrite i t s s' → P s → P s') :
    ∀ (l : List Value) (i : Nat) (s s' : AffineApplyNormalizer × List AffineExpr),
      composeAndDispatch ir nested numDimsBeforeRewrite i l s = some s' → P s → P s'
  | [], _, s, s', h, hs => by cases h; exact hs
  | t :: rest, i, s, s', h, hs => by
    obtain ⟨s₁, hstep₁, h⟩ := composeAndDispatch_cons h
    exact composeAndDispatch_invariant P hstep rest (i + 1) s₁ s' h (hstep i t s s₁ hstep₁ hs)

/-- The composing loop collects one expression per operand in a dim position and one per
`affine.apply` operand in a symbol position. -/
theorem composeAndDispatch_length :
    ∀ (l : List Value) (i : Nat) (s s' : AffineApplyNormalizer × List AffineExpr),
      composeAndDispatch ir nested numDimsBeforeRewrite i l s = some s' →
      s'.2.length = s.2.length + (l.take (numDimsBeforeRewrite - i)).length +
        (l.drop (numDimsBeforeRewrite - i)).countP fun t => (ir.affineApplyOf t).isSome
  | [], _, s, s', h => by cases h; simp
  | t :: rest, i, s, s', h => by
    obtain ⟨s₁, hstep, h⟩ := composeAndDispatch_cons h
    have hstep_len := hstep.length_eq
    rw [composeAndDispatch_length rest (i + 1) s₁ s' h, countP_drop_cons, List.length_take,
      List.length_take, List.length_cons,
      show numDimsBeforeRewrite - (i + 1) = numDimsBeforeRewrite - i - 1 by omega]
    by_cases hz : numDimsBeforeRewrite - i = 0
    · cases happ : ir.affineApplyOf t <;> simp [hz, happ] at hstep_len ⊢ <;> omega
    · simp only [hz, false_and, if_false] at hstep_len ⊢
      omega

end Dispatch

/-- The end of the constructor only sets the map. -/
theorem Reachable.finish {map : AffineMap} {n N : AffineApplyNormalizer} {aux : List AffineExpr}
    (h : Reachable n) (hf : finish map n aux = some N) : Reachable N := by
  unfold AffineApplyNormalizer.finish at hf
  split at hf
  · cases hf
    exact .setAffineMap map h
  · obtain ⟨composed, -, rfl⟩ := Option.map_eq_some'.mp hf
    exact .setAffineMap _ h

/-- The constructor's end builds a well-formed map from a well-formed rewritten map with at most
one dim per collected expression, when those expressions are valid in its coordinates. -/
theorem finish_isWellFormed {map : AffineMap} {n N : AffineApplyNormalizer} {aux : List AffineExpr}
    (hf : finish map n aux = some N) (hwf : map.isWellFormed) (hdims : map.numDims ≤ aux.length)
    (hinv : LoopInvariant (n, aux)) : N.affineMap.isWellFormed := by
  unfold AffineApplyNormalizer.finish at hf
  split at hf
  · cases hf
    exact hwf
  · obtain ⟨composed, hc, rfl⟩ := Option.map_eq_some'.mp hf
    refine AffineMap.isWellFormed_simplifyAffineMap (AffineMap.isWellFormed_compose hc hwf hdims
      fun e he => AffineExpr.isValidIn_mono (hinv.valid e he) ?_ ?_)
    · simp [auxiliaryMap, dimValueToPosition_length]
    · simp only [auxiliaryMap]
      omega

/-- Every normalizer the constructor builds is reachable, at every depth. -/
theorem build_reachable (ir : IR) :
    ∀ budget map operands N, build ir budget map operands = some N → Reachable N
  | 0, map, operands, N, h => by
    unfold build at h
    obtain ⟨pm, -, h⟩ := Option.bind_eq_some.mp h
    have hinv := @LoopInvariant.dispatchOnly pm.numDims 0 operands (empty, [])
      ⟨.init, by simp⟩
    generalize dispatchOnly pm.numDims 0 operands (empty, []) = s at hinv h
    exact hinv.reachable.finish h
  | budget + 1, map, operands, N, h => by
    unfold build at h
    obtain ⟨pm, -, h⟩ := Option.bind_eq_some.mp h
    obtain ⟨⟨n, aux⟩, hloop, h⟩ := Option.bind_eq_some.mp h
    have hn := composeAndDispatch_invariant (fun s => Reachable s.1)
      (fun _ _ _ _ hstep hs => hstep.reachable (fun _ _ _ h => build_reachable ir budget _ _ _ h) hs)
      operands 0 _ _ hloop Reachable.init
    exact hn.finish h

/-- The expressions a built normalizer's loop collected cover the promoted map's dims. -/
theorem promoted_numDims_le {ir : IR} {map pm : AffineMap} {operands : List Value}
    (hlen : operands.length = map.numInputs)
    (hpnd : pm.numDims = map.numDims +
      (operands.drop map.numDims).countP fun t => (ir.affineApplyOf t).isSome) :
    pm.numDims ≤ (operands.take map.numDims).length +
      (operands.drop map.numDims).countP fun t => (ir.affineApplyOf t).isSome := by
  rw [hpnd, List.length_take, hlen, AffineMap.numInputs]
  omega

/-- On a function whose `affine.apply`s are verified and well formed, every level of the
constructor builds a well-formed map from a well-formed one with one operand per input. -/
theorem build_isWellFormed {ir : IR} (hir : ir.affineAppliesVerified)
    (hwfs : ir.affineApplyMapsWellFormed) :
    ∀ budget map operands N, map.isWellFormed → operands.length = map.numInputs →
      build ir budget map operands = some N → N.affineMap.isWellFormed
  | budget, map, operands, N, hwf, hlen, h => by
    have hdrop : operands.length - map.numSymbols = map.numDims := by
      simp [hlen, AffineMap.numInputs]
    obtain ⟨pm, hpm, hpwf, hpnd, -⟩ := promoteComposedSymbolsAsDims_sound ir map
      (operands.drop map.numDims) hwf (by simp [hlen, AffineMap.numInputs])
    have hcover := promoted_numDims_le hlen hpnd
    cases budget with
    | zero =>
      simp only [build, hdrop, hpm, Option.bind_eq_bind, Option.some_bind] at h
      have hinv := @LoopInvariant.dispatchOnly pm.numDims 0 operands (empty, []) ⟨.init, by simp⟩
      obtain ⟨-, -, ha⟩ := dispatchOnly_spec pm.numDims operands 0 empty []
      generalize dispatchOnly pm.numDims 0 operands (empty, []) = s at hinv h ha
      obtain ⟨n, aux⟩ := s
      refine finish_isWellFormed h hpwf ?_ hinv
      simp only [List.length_nil, Nat.zero_add, Nat.sub_zero, List.length_take] at ha hcover
      have hc := List.countP_le_length (fun t => (ir.affineApplyOf t).isSome)
        (l := operands.drop map.numDims)
      rw [List.length_drop] at hc
      show pm.numDims ≤ aux.length
      omega
    | succ budget =>
      simp only [build, hdrop, hpm, Option.bind_eq_bind, Option.some_bind] at h
      obtain ⟨⟨n, aux⟩, hloop, h⟩ := Option.bind_eq_some.mp h
      -- a nested normalizer is reachable and its first result valid in its coordinates
      have hnested : ∀ t m ops other, ir.affineApplyOf t = some (m, ops) →
          build ir budget m ops = some other → Reachable other ∧
            ∀ e ∈ other.affineMap.results.head?,
              e.isValidIn other.reorderedDims.length other.concatenatedSymbols.length := by
        intro t m ops other happ hother
        have hops := (verifyAffineApply_eq_ok.mp (hir t m ops happ)).1
        obtain ⟨hnd, hns, -⟩ := build_spec hops hother
        have hwfo := build_isWellFormed hir hwfs budget m ops other (hwfs t m ops happ) hops hother
        refine ⟨build_reachable ir budget m ops other hother, fun e he => ?_⟩
        rw [← hnd, ← hns]
        exact List.all_eq_true.mp hwfo e (List.mem_of_mem_head? he)
      have hinv := composeAndDispatch_invariant LoopInvariant
        (fun _ t _ _ hstep hs => hstep.loopInvariant (hnested t) hs) operands 0 _ _ hloop
        ⟨.init, by simp⟩
      have ha := composeAndDispatch_length operands 0 _ _ hloop
      refine finish_isWellFormed h hpwf ?_ hinv
      simp only [List.length_nil, Nat.zero_add, Nat.sub_zero] at ha
      rw [ha]
      exact hcover

/-- The normalizer keeps consistent coordinates: built normalizers are reachable, reachable ones
are coherent, `renumberOneDim` finds or appends, and `renumber` of a nested one is exact. -/
theorem normalizer_coordinates_consistent (ir : IR) :
    (∀ budget map operands N, build ir budget map operands = some N → Reachable N) ∧
    (∀ n : AffineApplyNormalizer, Reachable n → n.reorderedDims.Nodup ∧
      ∀ v i, n.dimValueToPosition.lookup v = some i ↔ n.reorderedDims[i]? = some v) ∧
    (∀ (n : AffineApplyNormalizer) (v : Value), Reachable n →
      (∃ i, (n.renumberOneDim v).1 = .dim i ∧ (n.renumberOneDim v).2.reorderedDims[i]? = some v) ∧
      (n.renumberOneDim v).2.reorderedDims =
        if v ∈ n.reorderedDims then n.reorderedDims else n.reorderedDims ++ [v]) ∧
    (ir.affineAppliesVerified → ir.affineApplyMapsWellFormed →
      ∀ (n other : AffineApplyNormalizer) (budget : Nat) (t : Value) (map : AffineMap)
        (operands : List Value),
        Reachable n → ir.affineApplyOf t = some (map, operands) →
        build ir budget map operands = some other →
        ∃ renumbered n' e e', n.renumber other = some (renumbered, n') ∧
          other.affineMap.results.head? = some e ∧ renumbered.results.head? = some e' ∧
          ∀ ρ, n'.evalPositional ρ e' = other.evalPositional ρ e) := by
  refine ⟨build_reachable ir, fun n h => ⟨h.coherent.nodup, h.coherent.lookup_eq_some_iff⟩,
    fun n v h => ⟨(h.coherent.renumberOneDim v).2.1, (h.coherent.renumberOneDim v).2.2.1⟩,
    fun hir hwfs n other budget t map operands hn happ hother => ?_⟩
  obtain ⟨hops, -, -, -, hone⟩ := verifyAffineApply_eq_ok.mp (hir t map operands happ)
  obtain ⟨hnd, hns, hres⟩ := build_spec hops hother
  have hwf := build_isWellFormed hir hwfs budget map operands other (hwfs t map operands happ) hops
    hother
  -- the nested map has one result, valid in the nested normalizer's coordinates
  obtain ⟨e, rest, hresults⟩ : ∃ e rest, other.affineMap.results = e :: rest := by
    cases hr : other.affineMap.results with
    | nil => rw [hr, hone] at hres; cases hres
    | cons e rest => exact ⟨e, rest, rfl⟩
  have hvalid : e.isValidIn other.reorderedDims.length other.concatenatedSymbols.length := by
    rw [← hnd, ← hns]
    exact List.all_eq_true.mp hwf e (by simp [hresults])
  obtain ⟨renumbered, n', hren, -, -, -, hforall⟩ :=
    hn.coherent.renumber (build_reachable ir budget map operands other hother).coherent
  obtain ⟨e', he', hrel⟩ := forall₂_head?_left hforall (by rw [hresults]; rfl)
  exact ⟨renumbered, n', e, e', hren, by rw [hresults]; rfl, he', (hrel hvalid).2⟩

/-- Loop induction variables `%i` and `%j` (values `0` and `1`), a function argument `%N` (value
`2`) and `%a = affine.apply (d0)[s0] -> (d0 + s0) (%i)[%N]` (value `3`) in the loop body. -/
def twoLoopApply : IR :=
  ⟨[⟨true, false, none⟩, ⟨true, false, none⟩, ⟨true, true, none⟩,
    ⟨true, false, some (.affineApply ⟨1, 1, [.binary .add (.dim 0) (.symbol 0)]⟩ [0, 2])⟩],
    by decide⟩

/-- The normalizer of `(d0) -> (d0)` over `(%j)` renumbers the nested normalizer of `%a`, whose
dim `%i` is new to it: `%i` becomes its second dim, and `%a`'s result is read there. -/
theorem normalizer_coordinates_consistent_dimApply :
    ∃ n other, build twoLoopApply 0 ⟨1, 0, [.dim 0]⟩ [1] = some n ∧
      build twoLoopApply 0 ⟨1, 1, [.binary .add (.dim 0) (.symbol 0)]⟩ [0, 2] = some other ∧
      other.reorderedDims = [0] ∧ Reachable n ∧ n.reorderedDims.Nodup ∧
      (∃ i, (n.renumberOneDim 0).1 = .dim i ∧ (n.renumberOneDim 0).2.reorderedDims[i]? = some 0) ∧
      ∃ renumbered n' e e', n.renumber other = some (renumbered, n') ∧
        other.affineMap.results.head? = some e ∧ renumbered.results.head? = some e' ∧
        ∀ ρ, n'.evalPositional ρ e' = other.evalPositional ρ e := by
  obtain ⟨n, hn⟩ : ∃ n, build twoLoopApply 0 ⟨1, 0, [.dim 0]⟩ [1] = some n := ⟨_, rfl⟩
  obtain ⟨other, hother⟩ : ∃ other,
      build twoLoopApply 0 ⟨1, 1, [.binary .add (.dim 0) (.symbol 0)]⟩ [0, 2] = some other :=
    ⟨_, rfl⟩
  obtain ⟨hbuild, hcoherent, hdim, hrenumber⟩ := normalizer_coordinates_consistent twoLoopApply
  have hr := hbuild 0 _ _ n hn
  exact ⟨n, other, hn, hother, by cases hother; rfl, hr, (hcoherent n hr).1, (hdim n 0 hr).1,
    hrenumber (by decide) (by decide) n other 0 3 _ _ hr rfl hother⟩

end AffineApplyNormalizer

end Mlir
