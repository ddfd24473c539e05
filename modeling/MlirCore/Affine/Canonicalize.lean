import MlirCore.Affine.Validity
import Mathlib.Data.List.Nodup

/-!
# Canonicalizing a map and its operands

`canonicalizeMapAndOperands` moves every dim operand that is a valid symbol to a new trailing
symbol (`canonicalizePromotedSymbols`), then drops unused positions and merges repeated operands,
dims among dims and symbols among symbols; each step builds a remapping list for
`replaceDimsAndSymbols`. Canonicalization keeps the map's value under every assignment of the
operands, and its output is canonical and is its own canonicalization.
-/

namespace Mlir

/-- The state of `canonicalizePromotedSymbols`' operand loop. -/
structure PromotedSymbolsState where
  resultOperands : List Value
  remappedSymbols : List Value
  nextDim : Nat
  nextSym : Nat
  dimRemapping : List (Option AffineExpr)

/-- One iteration of `canonicalizePromotedSymbols`' loop, at operand position `i`. -/
def promotedSymbolsStep (ir : IR) (numDims oldNumSyms : Nat) (s : PromotedSymbolsState)
    (i : Nat) (operand : Value) : PromotedSymbolsState :=
  if i < numDims then
    if isValidSymbol ir operand then
      { s with dimRemapping := s.dimRemapping ++ [some (.symbol (oldNumSyms + s.nextSym))]
               nextSym := s.nextSym + 1
               remappedSymbols := s.remappedSymbols ++ [operand] }
    else
      { s with dimRemapping := s.dimRemapping ++ [some (.dim s.nextDim)]
               nextDim := s.nextDim + 1
               resultOperands := s.resultOperands ++ [operand] }
  else
    { s with resultOperands := s.resultOperands ++ [operand] }

/-- `canonicalizePromotedSymbols`' loop over the operands from position `i` on. -/
def promotedSymbolsLoop (ir : IR) (numDims oldNumSyms : Nat) :
    Nat → List Value → PromotedSymbolsState → PromotedSymbolsState
  | _, [], s => s
  | i, operand :: rest, s =>
    promotedSymbolsLoop ir numDims oldNumSyms (i + 1) rest
      (promotedSymbolsStep ir numDims oldNumSyms s i operand)

/-- `canonicalizePromotedSymbols`: dim operands that are valid symbols become trailing
symbols. -/
def canonicalizePromotedSymbols (ir : IR) (map : AffineMap) (operands : List Value) :
    Option (AffineMap × List Value) :=
  if operands.isEmpty then some (map, operands)
  else
    let s := promotedSymbolsLoop ir map.numDims map.numSymbols 0 operands ⟨[], [], 0, 0, []⟩
    (map.replaceDimsAndSymbols s.dimRemapping [] s.nextDim (map.numSymbols + s.nextSym)).map
      fun map => (map, s.resultOperands ++ s.remappedSymbols)

/-- The state of one of `canonicalizeMapAndOperands`' two deduplication loops. -/
structure DedupState where
  resultOperands : List Value
  seen : List (Value × AffineExpr)
  remapping : List (Option AffineExpr)
  next : Nat

/-- One iteration of a deduplication loop: a used position takes the expression of its operand's
first slot, or the next position for a new operand; an unused one keeps a null entry. -/
def dedupStep (position : Nat → AffineExpr) (s : DedupState) (used : Bool) (operand : Value) :
    DedupState :=
  if used then
    match s.seen.lookup operand with
    | none =>
      { resultOperands := s.resultOperands ++ [operand]
        seen := s.seen ++ [(operand, position s.next)]
        remapping := s.remapping ++ [some (position s.next)]
        next := s.next + 1 }
    | some e => { s with remapping := s.remapping ++ [some e] }
  else
    { s with remapping := s.remapping ++ [none] }

/-- A deduplication loop over the operands from position `i` on; `used i` is the bit the
result walk set for position `i`. -/
def dedupLoop (position : Nat → AffineExpr) (used : Nat → Bool) :
    Nat → List Value → DedupState → DedupState
  | _, [], s => s
  | i, operand :: rest, s => dedupLoop position used (i + 1) rest (dedupStep position s (used i) operand)

/-- The second half of `canonicalizeMapAndOperands`: mark the positions the results use,
run the two deduplication loops, and rewrite the map. -/
def dropUnusedAndMergeDuplicates (map : AffineMap) (operands : List Value) :
    Option (AffineMap × List Value) := do
  let usedDims := fun i => map.results.any (·.usesDim i)
  let usedSyms := fun i => map.results.any (·.usesSymbol i)
  let dims := dedupLoop .dim usedDims 0 (operands.take map.numDims) ⟨[], [], [], 0⟩
  let syms := dedupLoop .symbol usedSyms 0 (operands.drop map.numDims)
    ⟨dims.resultOperands, [], [], 0⟩
  let map ← map.replaceDimsAndSymbols dims.remapping syms.remapping dims.next syms.next
  pure (map, syms.resultOperands)

/-- `canonicalizeMapAndOperands`. -/
def canonicalizeMapAndOperands (ir : IR) (map : AffineMap) (operands : List Value) :
    Option (AffineMap × List Value) :=
  if operands.isEmpty then some (map, operands)
  else do
    let (map, operands) ← canonicalizePromotedSymbols ir map operands
    dropUnusedAndMergeDuplicates map operands

section Promote

variable (ir : IR) (numDims oldNumSyms : Nat)

/-- The dim remapping `canonicalizePromotedSymbols` builds for a run of dim operands, from dim
`nextDim` and promoted symbol `nextSym` on. -/
def promoteRemapping : Nat → Nat → List Value → List (Option AffineExpr)
  | _, _, [] => []
  | nextDim, nextSym, operand :: rest =>
    if isValidSymbol ir operand then
      some (.symbol (oldNumSyms + nextSym)) :: promoteRemapping nextDim (nextSym + 1) rest
    else some (.dim nextDim) :: promoteRemapping (nextDim + 1) nextSym rest

@[simp] theorem promoteRemapping_length (nextDim nextSym : Nat) (l : List Value) :
    (promoteRemapping ir oldNumSyms nextDim nextSym l).length = l.length := by
  induction l generalizing nextDim nextSym with
  | nil => rfl
  | cons v l ih => unfold promoteRemapping; split <;> simp [ih]

/-- Every promotion remapping entry is set. -/
theorem promoteRemapping_ne_none (nextDim nextSym : Nat) (l : List Value) :
    ∀ x ∈ promoteRemapping ir oldNumSyms nextDim nextSym l, x ≠ none := by
  induction l generalizing nextDim nextSym with
  | nil => simp [promoteRemapping]
  | cons v l ih =>
    unfold promoteRemapping
    split <;> exact List.forall_mem_cons.mpr ⟨Option.some_ne_none _, ih _ _⟩

/-- Over dim positions the loop splits the operands by `isValidSymbol`. -/
theorem promotedSymbolsLoop_dims (l : List Value) (i : Nat) (s : PromotedSymbolsState)
    (h : i + l.length ≤ numDims) :
    promotedSymbolsLoop ir numDims oldNumSyms i l s =
      { resultOperands := s.resultOperands ++ l.filter (!isValidSymbol ir ·)
        remappedSymbols := s.remappedSymbols ++ l.filter (isValidSymbol ir)
        nextDim := s.nextDim + (l.filter (!isValidSymbol ir ·)).length
        nextSym := s.nextSym + (l.filter (isValidSymbol ir)).length
        dimRemapping := s.dimRemapping ++ promoteRemapping ir oldNumSyms s.nextDim s.nextSym l } := by
  induction l generalizing i s with
  | nil => simp [promotedSymbolsLoop, promoteRemapping]
  | cons v l ih =>
    simp only [List.length_cons] at h
    rw [promotedSymbolsLoop, ih (i + 1) _ (by omega), promotedSymbolsStep, if_pos (by omega)]
    by_cases hv : isValidSymbol ir v <;> simp [hv, promoteRemapping, List.filter_cons] <;> omega

/-- Over symbol positions the loop only appends the operands. -/
theorem promotedSymbolsLoop_symbols (l : List Value) (i : Nat) (s : PromotedSymbolsState)
    (h : numDims ≤ i) :
    promotedSymbolsLoop ir numDims oldNumSyms i l s =
      { s with resultOperands := s.resultOperands ++ l } := by
  induction l generalizing i s with
  | nil => simp [promotedSymbolsLoop]
  | cons v l ih =>
    rw [promotedSymbolsLoop, ih (i + 1) _ (by omega), promotedSymbolsStep, if_neg (by omega)]
    simp

theorem promotedSymbolsLoop_append (l₁ l₂ : List Value) (i : Nat) (s : PromotedSymbolsState) :
    promotedSymbolsLoop ir numDims oldNumSyms i (l₁ ++ l₂) s =
      promotedSymbolsLoop ir numDims oldNumSyms (i + l₁.length) l₂
        (promotedSymbolsLoop ir numDims oldNumSyms i l₁ s) := by
  induction l₁ generalizing i s with
  | nil => rfl
  | cons v l ih =>
    rw [List.cons_append, promotedSymbolsLoop, ih, promotedSymbolsLoop, List.length_cons,
      Nat.add_right_comm, Nat.add_assoc]

/-- Each promotion remapping entry names a slot with the same operand and is valid in the new
coordinates: kept dims from dim `nextDim`, promoted ones from symbol `oldNumSyms + nextSym`. -/
theorem promoteRemapping_denotes (tgt : AffineExpr → Option Value) (l : List Value)
    (nextDim nextSym : Nat)
    (hdim : ∀ t < (l.filter (!isValidSymbol ir ·)).length,
      tgt (.dim (nextDim + t)) = (l.filter (!isValidSymbol ir ·))[t]?)
    (hsym : ∀ t < (l.filter (isValidSymbol ir)).length,
      tgt (.symbol (oldNumSyms + (nextSym + t))) = (l.filter (isValidSymbol ir))[t]?)
    (k : Nat) (hk : k < l.length) :
    ∃ r, (promoteRemapping ir oldNumSyms nextDim nextSym l)[k]? = some (some r) ∧ tgt r = l[k]? ∧
      r.isValidIn (nextDim + (l.filter (!isValidSymbol ir ·)).length)
        (oldNumSyms + (nextSym + (l.filter (isValidSymbol ir)).length)) := by
  induction l generalizing nextDim nextSym k with
  | nil => simp at hk
  | cons v l ih =>
    by_cases hv : isValidSymbol ir v
    · simp only [List.filter_cons, hv, Bool.not_true, List.length_cons, if_true,
        Bool.false_eq_true, if_false] at hdim hsym ⊢
      cases k with
      | zero =>
        refine ⟨.symbol (oldNumSyms + nextSym), by simp [promoteRemapping, hv], ?_, ?_⟩
        · simpa using hsym 0 (by omega)
        · simp [AffineExpr.isValidIn]
      | succ k =>
        obtain ⟨r, h1, h2, h3⟩ := ih nextDim (nextSym + 1) hdim
          (fun t ht => by simpa [Nat.add_assoc, Nat.add_comm 1 t] using hsym (t + 1) (by omega))
          k (by simpa using hk)
        refine ⟨r, by simpa [promoteRemapping, hv] using h1, by simpa using h2, ?_⟩
        rwa [Nat.add_assoc nextSym 1, Nat.add_comm 1] at h3
    · simp only [List.filter_cons, hv, Bool.not_false, List.length_cons, if_true,
        Bool.false_eq_true, if_false] at hdim hsym ⊢
      cases k with
      | zero =>
        refine ⟨.dim nextDim, by simp [promoteRemapping, hv], ?_, ?_⟩
        · simpa using hdim 0 (by omega)
        · simp [AffineExpr.isValidIn]
      | succ k =>
        obtain ⟨r, h1, h2, h3⟩ := ih (nextDim + 1) nextSym
          (fun t ht => by simpa [Nat.add_assoc, Nat.add_comm 1 t] using hdim (t + 1) (by omega)) hsym
          k (by simpa using hk)
        refine ⟨r, by simpa [promoteRemapping, hv] using h1, by simpa using h2, ?_⟩
        rwa [Nat.add_assoc nextDim 1, Nat.add_comm 1] at h3

/-- When no operand is a valid symbol, every dim keeps its place. -/
theorem promoteRemapping_of_forall_not (l : List Value) (nextDim nextSym : Nat)
    (h : ∀ v ∈ l, isValidSymbol ir v = false) (k : Nat) (hk : k < l.length) :
    (promoteRemapping ir oldNumSyms nextDim nextSym l)[k]? = some (some (.dim (nextDim + k))) := by
  induction l generalizing nextDim k with
  | nil => simp at hk
  | cons v l ih =>
    rw [promoteRemapping, if_neg (by simp [h v (List.mem_cons_self _ _)])]
    cases k with
    | zero => simp
    | succ k =>
      rw [List.getElem?_cons_succ, ih (nextDim + 1) (fun w hw => h w (List.mem_cons_of_mem _ hw)) k
        (by simpa using hk)]
      simp [Nat.add_assoc, Nat.add_comm 1 k]

end Promote

/-- `canonicalizePromotedSymbols` on dim operands `dims` and symbol operands `syms`: kept dims,
then the old symbols, then the dims that are valid symbols. -/
theorem canonicalizePromotedSymbols_eq (ir : IR) (map : AffineMap) (dims syms : List Value)
    (hdims : dims.length = map.numDims) (hne : dims ++ syms ≠ []) :
    canonicalizePromotedSymbols ir map (dims ++ syms) =
      (map.replaceDimsAndSymbols (promoteRemapping ir map.numSymbols 0 0 dims) []
          (dims.filter (!isValidSymbol ir ·)).length
          (map.numSymbols + (dims.filter (isValidSymbol ir)).length)).map
        fun map => (map, dims.filter (!isValidSymbol ir ·) ++ syms ++ dims.filter (isValidSymbol ir)) := by
  have hempty : (dims ++ syms).isEmpty = false := by simpa using hne
  rw [canonicalizePromotedSymbols, if_neg (by simp [hempty]), promotedSymbolsLoop_append,
    promotedSymbolsLoop_dims ir map.numDims map.numSymbols dims 0 _ (by omega),
    promotedSymbolsLoop_symbols ir map.numDims map.numSymbols syms _ _ (by omega)]
  simp

section Dedup

variable (position : Nat → AffineExpr) (used : Nat → Bool) (base : Nat)

/-- The deduplication loop after `processed`: distinct new operands from `processed`, each used
position sent to its operand's first slot, unused ones to null, every slot some position's image. -/
structure DedupInv (processed : List Value) (s : DedupState) : Prop where
  remapping_length : s.remapping.length = processed.length
  results_length : s.resultOperands.length = base + s.next
  seen_keys : s.seen.map Prod.fst = s.resultOperands.drop base
  seen_slot : ∀ p ∈ s.seen, ∃ k < s.next, p.2 = position k ∧ s.resultOperands[base + k]? = some p.1
  used_slot : ∀ i < processed.length, used i →
    ∃ k < s.next, s.remapping[i]? = some (some (position k)) ∧
      s.resultOperands[base + k]? = processed[i]?
  unused_null : ∀ i < processed.length, used i = false → s.remapping[i]? = some none
  slot_used : ∀ k < s.next, ∃ i < processed.length, used i ∧ s.remapping[i]? = some (some (position k))
  nodup : (s.resultOperands.drop base).Nodup
  subset : ∀ v ∈ s.resultOperands.drop base, v ∈ processed

/-- The invariant holds before the loop. -/
theorem dedupInv_init (resultOperands : List Value) :
    DedupInv position used resultOperands.length [] ⟨resultOperands, [], [], 0⟩ where
  remapping_length := rfl
  results_length := rfl
  seen_keys := by simp
  seen_slot := by simp
  used_slot := by simp
  unused_null := by simp
  slot_used := by simp
  nodup := by simp
  subset := by simp

omit base in
theorem dedupStep_unused (s : DedupState) (v : Value) :
    dedupStep position s false v = { s with remapping := s.remapping ++ [none] } := rfl

omit base in
theorem dedupStep_new {s : DedupState} {v : Value} (h : s.seen.lookup v = none) :
    dedupStep position s true v =
      { resultOperands := s.resultOperands ++ [v], seen := s.seen ++ [(v, position s.next)]
        remapping := s.remapping ++ [some (position s.next)], next := s.next + 1 } := by
  simp [dedupStep, h]

omit base in
theorem dedupStep_seen {s : DedupState} {v : Value} {e : AffineExpr} (h : s.seen.lookup v = some e) :
    dedupStep position s true v = { s with remapping := s.remapping ++ [some e] } := by
  simp [dedupStep, h]

namespace DedupInv

variable {position used base} {processed : List Value} {s : DedupState}

/-- Appending the entry of the next operand leaves the entries of the operands before it. -/
theorem getElem?_remapping_append (h : DedupInv position used base processed s)
    (x : Option AffineExpr) {i : Nat} (hi : i < processed.length) :
    (s.remapping ++ [x])[i]? = s.remapping[i]? :=
  List.getElem?_append_left (by rw [h.remapping_length]; exact hi)

/-- After one more operand, every used position still maps to a slot holding its operand, given
that the old slots keep their operands and the new entry, if used, names a slot holding `v`. -/
theorem used_slot_append (h : DedupInv position used base processed s) {v : Value}
    {x : Option AffineExpr} {res : List Value} {next : Nat} (hnext : s.next ≤ next)
    (hres : ∀ k < s.next, res[base + k]? = s.resultOperands[base + k]?)
    (hlast : used processed.length → ∃ k < next, x = some (position k) ∧ res[base + k]? = some v) :
    ∀ i < (processed ++ [v]).length, used i →
      ∃ k < next, (s.remapping ++ [x])[i]? = some (some (position k)) ∧
        res[base + k]? = (processed ++ [v])[i]? := by
  intro i hi hui
  rw [List.length_append, List.length_singleton] at hi
  rcases Nat.lt_succ_iff_lt_or_eq.mp hi with hlt | rfl
  · obtain ⟨k, hk, h1, h2⟩ := h.used_slot i hlt hui
    exact ⟨k, by omega, (h.getElem?_remapping_append x hlt).trans h1,
      (hres k hk).trans (h2.trans (List.getElem?_append_left hlt).symm)⟩
  · obtain ⟨k, hk, rfl, hv⟩ := hlast hui
    exact ⟨k, hk, by simp [← h.remapping_length], by simpa using hv⟩

/-- After one more operand, every unused position maps to a null entry, given that the new
entry is null when its position is unused. -/
theorem unused_null_append (h : DedupInv position used base processed s) {v : Value}
    {x : Option AffineExpr} (hlast : used processed.length = false → x = none) :
    ∀ i < (processed ++ [v]).length, used i = false → (s.remapping ++ [x])[i]? = some none := by
  intro i hi hui
  rw [List.length_append, List.length_singleton] at hi
  rcases Nat.lt_succ_iff_lt_or_eq.mp hi with hlt | rfl
  · exact (h.getElem?_remapping_append x hlt).trans (h.unused_null i hlt hui)
  · simp [← h.remapping_length, hlast hui]

/-- After one more operand, every old slot is still some used position's image. -/
theorem slot_used_append (h : DedupInv position used base processed s) (v : Value)
    (x : Option AffineExpr) {k : Nat} (hk : k < s.next) :
    ∃ i < (processed ++ [v]).length, used i ∧ (s.remapping ++ [x])[i]? = some (some (position k)) := by
  obtain ⟨i, hi, hui, hr⟩ := h.slot_used k hk
  exact ⟨i, by simp; omega, hui, (h.getElem?_remapping_append x hi).trans hr⟩

/-- An unused operand gets a null entry. -/
theorem step_unused (h : DedupInv position used base processed s) {v : Value}
    (hu : used processed.length = false) :
    DedupInv position used base (processed ++ [v]) { s with remapping := s.remapping ++ [none] } :=
  ⟨by simp [h.remapping_length], h.results_length, h.seen_keys, h.seen_slot,
    h.used_slot_append le_rfl (fun _ _ => rfl) (by simp [hu]), h.unused_null_append fun _ => rfl,
    fun _ hk => h.slot_used_append v none hk, h.nodup,
    fun w hw => List.mem_append_left _ (h.subset w hw)⟩

/-- A used operand seen before gets the slot it was first given. -/
theorem step_seen (h : DedupInv position used base processed s) {v : Value} {e : AffineExpr}
    (hu : used processed.length = true) (hl : s.seen.lookup v = some e) :
    DedupInv position used base (processed ++ [v]) { s with remapping := s.remapping ++ [some e] } := by
  have hmem : (v, e) ∈ s.seen := by
    obtain ⟨l₁, l₂, hs, -⟩ := List.lookup_eq_some_iff.mp hl
    rw [hs]
    simp
  obtain ⟨k, hk, hek, hv⟩ := h.seen_slot (v, e) hmem
  exact ⟨by simp [h.remapping_length], h.results_length, h.seen_keys, h.seen_slot,
    h.used_slot_append le_rfl (fun _ _ => rfl) fun _ => ⟨k, hk, congrArg some hek, hv⟩,
    h.unused_null_append (by simp [hu]), fun _ hk => h.slot_used_append v _ hk, h.nodup,
    fun w hw => List.mem_append_left _ (h.subset w hw)⟩

/-- A used operand not seen before takes the next slot. -/
theorem step_new (h : DedupInv position used base processed s) {v : Value}
    (hu : used processed.length = true) (hl : s.seen.lookup v = none) :
    DedupInv position used base (processed ++ [v])
      { resultOperands := s.resultOperands ++ [v], seen := s.seen ++ [(v, position s.next)]
        remapping := s.remapping ++ [some (position s.next)], next := s.next + 1 } := by
  have hbase : base ≤ s.resultOperands.length := by rw [h.results_length]; omega
  have hnotin : v ∉ s.resultOperands.drop base := by
    rw [← h.seen_keys]
    simp only [List.lookup_eq_none_iff, bne_iff_ne, ne_eq] at hl
    simp only [List.mem_map, not_exists, not_and]
    exact fun p hp hpv => hl p hp hpv.symm
  have hold : ∀ k < s.next, (s.resultOperands ++ [v])[base + k]? = s.resultOperands[base + k]? :=
    fun k hk => List.getElem?_append_left (by rw [h.results_length]; omega)
  have hnew : (s.resultOperands ++ [v])[base + s.next]? = some v := by
    rw [List.getElem?_append_right (by rw [h.results_length]), h.results_length]
    simp
  refine ⟨by simp [h.remapping_length], by simp [h.results_length]; omega, ?_, ?_,
    h.used_slot_append (Nat.le_succ _) hold fun _ => ⟨s.next, Nat.lt_succ_self _, rfl, hnew⟩,
    h.unused_null_append (by simp [hu]), ?_, ?_, ?_⟩ <;> dsimp only
  · simp [h.seen_keys, List.drop_append_of_le_length hbase]
  · intro p hp
    rcases List.mem_append.mp hp with hp | hp
    · obtain ⟨k, hk, h1, h2⟩ := h.seen_slot p hp
      exact ⟨k, by omega, h1, (hold k hk).trans h2⟩
    · obtain rfl := List.mem_singleton.mp hp
      exact ⟨s.next, by omega, rfl, hnew⟩
  · intro k hk
    rcases Nat.lt_succ_iff_lt_or_eq.mp hk with hlt | rfl
    · exact h.slot_used_append v _ hlt
    · exact ⟨processed.length, by simp, hu, by simp [← h.remapping_length]⟩
  · rw [List.drop_append_of_le_length hbase]
    exact h.nodup.append (List.nodup_singleton v)
      fun w hw hw' => hnotin ((List.mem_singleton.mp hw') ▸ hw)
  · intro w hw
    rw [List.drop_append_of_le_length hbase] at hw
    rcases List.mem_append.mp hw with hw | hw
    · exact List.mem_append_left _ (h.subset w hw)
    · exact List.mem_append_right _ hw

end DedupInv

/-- One iteration keeps the invariant. -/
theorem dedupInv_step {processed : List Value} {s : DedupState}
    (h : DedupInv position used base processed s) (v : Value) :
    DedupInv position used base (processed ++ [v])
      (dedupStep position s (used processed.length) v) := by
  cases hu : used processed.length with
  | false => rw [dedupStep_unused]; exact h.step_unused hu
  | true =>
    cases hl : s.seen.lookup v with
    | none => rw [dedupStep_new position hl]; exact h.step_new hu hl
    | some e => rw [dedupStep_seen position hl]; exact h.step_seen hu hl

/-- The loop keeps the invariant. -/
theorem dedupInv_loop (l : List Value) {processed : List Value} {s : DedupState}
    (h : DedupInv position used base processed s) :
    DedupInv position used base (processed ++ l) (dedupLoop position used processed.length l s) := by
  induction l generalizing processed s with
  | nil => simpa [dedupLoop] using h
  | cons v l ih =>
    rw [dedupLoop]
    simpa [List.append_assoc] using ih (dedupInv_step position used base h v)

omit base in
/-- The loop only appends operands. -/
theorem dedupLoop_resultOperands (i : Nat) (l : List Value) (s : DedupState) :
    ∃ t, (dedupLoop position used i l s).resultOperands = s.resultOperands ++ t := by
  induction l generalizing i s with
  | nil => exact ⟨[], by simp [dedupLoop]⟩
  | cons v l ih =>
    obtain ⟨t, ht⟩ := ih (i + 1) (dedupStep position s (used i) v)
    rw [dedupLoop, ht]
    unfold dedupStep
    split
    · split
      · exact ⟨v :: t, by simp⟩
      · exact ⟨t, rfl⟩
    · exact ⟨t, rfl⟩

omit base in
/-- On distinct operands, all used and none seen, the loop gives each operand the next slot. -/
theorem dedupLoop_of_nodup (i : Nat) (l : List Value) (s : DedupState)
    (hused : ∀ t < l.length, used (i + t)) (hnodup : l.Nodup)
    (hunseen : ∀ v ∈ l, s.seen.lookup v = none) :
    (dedupLoop position used i l s).resultOperands = s.resultOperands ++ l ∧
      (dedupLoop position used i l s).next = s.next + l.length ∧
      ∃ rs, (dedupLoop position used i l s).remapping = s.remapping ++ rs ∧
        ∀ t < l.length, rs[t]? = some (some (position (s.next + t))) := by
  induction l generalizing i s with
  | nil => exact ⟨by simp [dedupLoop], by simp [dedupLoop], [], by simp [dedupLoop], by simp⟩
  | cons v l ih =>
    obtain ⟨hvl, hl⟩ := List.nodup_cons.mp hnodup
    rw [dedupLoop, show used i = true by simpa using hused 0 (by simp),
      dedupStep_new position (hunseen v (List.mem_cons_self _ _))]
    obtain ⟨hres, hnext, rs, hrs, hrs'⟩ := ih (i + 1)
      { resultOperands := s.resultOperands ++ [v], seen := s.seen ++ [(v, position s.next)]
        remapping := s.remapping ++ [some (position s.next)], next := s.next + 1 }
      (fun t ht => by simpa [Nat.add_assoc, Nat.add_comm 1 t] using hused (t + 1) (by simp; omega)) hl
      (fun w hw => by
        have hwv : w ≠ v := fun h => hvl (h ▸ hw)
        have hwv' : (w == v) = false := by simpa using hwv
        simp [List.lookup_append, hunseen w (List.mem_cons_of_mem _ hw), List.lookup_cons, hwv'])
    refine ⟨by simpa using hres, by simp [hnext]; omega, some (position s.next) :: rs,
      by simpa using hrs, fun t ht => ?_⟩
    cases t with
    | zero => simp
    | succ t =>
      rw [List.getElem?_cons_succ, hrs' t (by simpa using ht)]
      simp [Nat.add_assoc, Nat.add_comm 1 t]

end Dedup

/-- Used positions of a well-formed map are below its counts. -/
theorem AffineMap.usesDim_lt {m : AffineMap} (hwf : m.isWellFormed) {e : AffineExpr}
    (he : e ∈ m.results) {i : Nat} (hi : e.usesDim i) : i < m.numDims :=
  (AffineExpr.isValidIn_iff.mp (List.all_eq_true.mp hwf e he)).1 i hi

/-- Used positions of a well-formed map are below its counts. -/
theorem AffineMap.usesSymbol_lt {m : AffineMap} (hwf : m.isWellFormed) {e : AffineExpr}
    (he : e ∈ m.results) {j : Nat} (hj : e.usesSymbol j) : j < m.numSymbols :=
  (AffineExpr.isValidIn_iff.mp (List.all_eq_true.mp hwf e he)).2 j hj

/-- `canonicalizePromotedSymbols` succeeds on one operand per input, giving the kept dims, the old
symbols, then the promoted dims; it keeps a well-formed map well formed and keeps its value. -/
theorem canonicalizePromotedSymbols_spec (ir : IR) (map : AffineMap) (dims syms : List Value)
    (hdims : dims.length = map.numDims) (hsyms : syms.length = map.numSymbols)
    (hne : dims ++ syms ≠ []) :
    ∃ map', canonicalizePromotedSymbols ir map (dims ++ syms) =
        some (map', dims.filter (!isValidSymbol ir ·) ++ syms ++ dims.filter (isValidSymbol ir)) ∧
      map'.numDims = (dims.filter (!isValidSymbol ir ·)).length ∧
      map'.numSymbols = map.numSymbols + (dims.filter (isValidSymbol ir)).length ∧
      map'.results.length = map.results.length ∧
      (map.isWellFormed → map'.isWellFormed ∧ ∀ ρ : Value → Int,
        map'.evalOn ((dims.filter (!isValidSymbol ir ·) ++ syms ++
          dims.filter (isValidSymbol ir)).map ρ) = map.evalOn ((dims ++ syms).map ρ)) := by
  set kept := dims.filter (!isValidSymbol ir ·)
  set promoted := dims.filter (isValidSymbol ir)
  obtain ⟨map', hmap'⟩ := Option.isSome_iff_exists.mp
    (@AffineMap.replaceDimsAndSymbols_isSome map (promoteRemapping ir map.numSymbols 0 0 dims) []
      kept.length (map.numSymbols + promoted.length)
      (fun _ _ i _ => AffineMap.getD_ne_none_of_forall (promoteRemapping_ne_none ir _ _ _ _) i _)
      (fun _ _ j _ => by simp))
  obtain ⟨hlen, hnd, hns⟩ := AffineMap.results_length_of_replaceDimsAndSymbols hmap'
  refine ⟨map', ?_, hnd, hns, hlen, fun hwf => ?_⟩
  · rw [canonicalizePromotedSymbols_eq ir map dims syms hdims hne, hmap']
    rfl
  set tgt := AffineMap.leafOperand kept.length (kept ++ syms ++ promoted)
  have hden := promoteRemapping_denotes ir map.numSymbols tgt dims 0 0
    (fun t ht => by simp [tgt, AffineMap.leafOperand, List.append_assoc, List.getElem?_append_left ht])
    (fun t ht => by
      simp only [tgt, AffineMap.leafOperand, Nat.zero_add, ← Nat.add_assoc]
      rw [List.getElem?_append_right (by simp [hsyms])]
      simp [hsyms])
  have hdimEntry : ∀ e ∈ map.results, ∀ i, e.usesDim i → ∃ r v,
      (promoteRemapping ir map.numSymbols 0 0 dims).getD i (some (.dim i)) = some r ∧
        (dims ++ syms)[i]? = some v ∧ tgt r = some v ∧
        r.isValidIn kept.length (map.numSymbols + promoted.length) := by
    intro e he i hi
    have hlt : i < dims.length := hdims ▸ AffineMap.usesDim_lt hwf he hi
    obtain ⟨r, h1, h2, h3⟩ := hden i hlt
    refine ⟨r, dims[i], by simp [h1], by simp [List.getElem?_append_left hlt],
      h2.trans (List.getElem?_eq_getElem hlt), by simpa using h3⟩
  have hsymEntry : ∀ e ∈ map.results, ∀ j, e.usesSymbol j →
      (dims ++ syms)[map.numDims + j]? = tgt (.symbol j) ∧ ∃ v, (dims ++ syms)[map.numDims + j]? = some v := by
    intro e he j hj
    have hlt : j < syms.length := hsyms ▸ AffineMap.usesSymbol_lt hwf he hj
    rw [← hdims, List.getElem?_append_right (by omega), Nat.add_sub_cancel_left]
    refine ⟨?_, syms[j], by simp [hlt]⟩
    simp [tgt, AffineMap.leafOperand, List.append_assoc, List.getElem?_append_right,
      List.getElem?_append_left hlt]
  refine ⟨?_, fun ρ => ?_⟩
  · refine AffineMap.isWellFormed_of_replaceDimsAndSymbols hmap'
      (fun e he i hi => ?_) (fun e he j hj => ⟨.symbol j, by simp, ?_⟩)
    · obtain ⟨r, v, hr, -, -, hv⟩ := hdimEntry e he i hi
      exact ⟨r, hr, hv⟩
    · simp [AffineExpr.isValidIn]
      have := AffineMap.usesSymbol_lt hwf he hj
      omega
  · refine AffineMap.evalOn_eq_of_replaceDimsAndSymbols hmap' (fun e he i hi => ?_)
      (fun e he j hj => ?_) ρ
    · obtain ⟨r, v, hr, hv, htgt, -⟩ := hdimEntry e he i hi
      exact ⟨r, v, hr, hv, htgt⟩
    · obtain ⟨heq, v, hv⟩ := hsymEntry e he j hj
      exact ⟨.symbol j, v, by simp, hv, heq.symm.trans hv⟩

/-- The second half succeeds on one operand per input: every position is used, and the distinct
dim and symbol operands come from the input's; a well-formed map keeps its form and value. -/
theorem dropUnusedAndMergeDuplicates_spec (map : AffineMap) (operands : List Value)
    (hlen : operands.length = map.numInputs) :
    ∃ map' operands', dropUnusedAndMergeDuplicates map operands = some (map', operands') ∧
      map'.results.length = map.results.length ∧
      operands'.length = map'.numInputs ∧
      (∀ i < map'.numDims, ∃ e ∈ map'.results, e.usesDim i) ∧
      (∀ j < map'.numSymbols, ∃ e ∈ map'.results, e.usesSymbol j) ∧
      (operands'.take map'.numDims).Nodup ∧ (operands'.drop map'.numDims).Nodup ∧
      (∀ v ∈ operands'.take map'.numDims, v ∈ operands.take map.numDims) ∧
      (∀ v ∈ operands'.drop map'.numDims, v ∈ operands.drop map.numDims) ∧
      (map.isWellFormed → map'.isWellFormed ∧
        ∀ ρ : Value → Int, map'.evalOn (operands'.map ρ) = map.evalOn (operands.map ρ)) := by
  set usedDims : Nat → Bool := fun i => map.results.any (·.usesDim i)
  set usedSyms : Nat → Bool := fun i => map.results.any (·.usesSymbol i)
  set dims := operands.take map.numDims
  set syms := operands.drop map.numDims
  have hdlen : dims.length = map.numDims := by simp [dims, hlen, AffineMap.numInputs]
  have hslen : syms.length = map.numSymbols := by simp [syms, hlen, AffineMap.numInputs]
  set dS := dedupLoop .dim usedDims 0 dims ⟨[], [], [], 0⟩
  have hD : DedupInv .dim usedDims 0 dims dS := by
    simpa using dedupInv_loop .dim usedDims 0 dims (dedupInv_init .dim usedDims [])
  have hbase : dS.resultOperands.length = dS.next := by simpa using hD.results_length
  set sS := dedupLoop .symbol usedSyms 0 syms ⟨dS.resultOperands, [], [], 0⟩
  have hS : DedupInv .symbol usedSyms dS.next syms sS := by
    simpa [hbase] using dedupInv_loop .symbol usedSyms dS.resultOperands.length syms
      (dedupInv_init .symbol usedSyms dS.resultOperands)
  obtain ⟨t, ht⟩ := dedupLoop_resultOperands .symbol usedSyms 0 syms ⟨dS.resultOperands, [], [], 0⟩
  change sS.resultOperands = dS.resultOperands ++ t at ht
  have hdimSlot : ∀ e ∈ map.results, ∀ i, e.usesDim i → i < dims.length → ∃ k < dS.next,
      dS.remapping.getD i (some (.dim i)) = some (.dim k) ∧ dims[i]? = operands[i]? ∧
        sS.resultOperands[k]? = dims[i]? := by
    intro e he i hi hlt
    obtain ⟨k, hk, h1, h2⟩ := hD.used_slot i hlt (List.any_eq_true.mpr ⟨e, he, hi⟩)
    refine ⟨k, hk, by simp [h1], List.getElem?_take_of_lt (hdlen ▸ hlt), ?_⟩
    rw [ht, List.getElem?_append_left (by omega)]
    simpa using h2
  have hsymSlot : ∀ e ∈ map.results, ∀ j, e.usesSymbol j → j < syms.length → ∃ k < sS.next,
      sS.remapping.getD j (some (.symbol j)) = some (.symbol k) ∧
        syms[j]? = operands[map.numDims + j]? ∧ sS.resultOperands[dS.next + k]? = syms[j]? := by
    intro e he j hj hlt
    obtain ⟨k, hk, h1, h2⟩ := hS.used_slot j hlt (List.any_eq_true.mpr ⟨e, he, hj⟩)
    exact ⟨k, hk, by simp [h1], by simp [syms], h2⟩
  obtain ⟨map', hmap'⟩ := Option.isSome_iff_exists.mp
    (@AffineMap.replaceDimsAndSymbols_isSome map dS.remapping sS.remapping dS.next sS.next
      (fun e he i hi => by
        by_cases hlt : i < dims.length
        · obtain ⟨k, -, h1, -⟩ := hdimSlot e he i hi hlt
          exact h1 ▸ Option.some_ne_none _
        · rw [List.getD_eq_default _ _ (by rw [hD.remapping_length]; omega)]
          exact Option.some_ne_none _)
      (fun e he j hj => by
        by_cases hlt : j < syms.length
        · obtain ⟨k, -, h1, -⟩ := hsymSlot e he j hj hlt
          exact h1 ▸ Option.some_ne_none _
        · rw [List.getD_eq_default _ _ (by rw [hS.remapping_length]; omega)]
          exact Option.some_ne_none _))
  obtain ⟨hrlen, hnd, hns⟩ := AffineMap.results_length_of_replaceDimsAndSymbols hmap'
  have hres : dropUnusedAndMergeDuplicates map operands = some (map', sS.resultOperands) := by
    simp only [dropUnusedAndMergeDuplicates]
    rw [hmap']
    rfl
  have hslen' : sS.resultOperands.length = dS.next + sS.next := hS.results_length
  have htake : sS.resultOperands.take dS.next = dS.resultOperands := by
    rw [ht, List.take_append_of_le_length (by omega), List.take_of_length_le (by omega)]
  refine ⟨map', sS.resultOperands, hres, hrlen, ?_, ?_, ?_, ?_, ?_, ?_, ?_, fun hwf => ⟨?_, fun ρ => ?_⟩⟩
  · rw [hslen', AffineMap.numInputs, hnd, hns]
  · intro k hk
    rw [hnd] at hk
    obtain ⟨i, hi, hui, hr⟩ := hD.slot_used k hk
    obtain ⟨e, he, hei⟩ := List.any_eq_true.mp hui
    obtain ⟨e', he', hrep⟩ := AffineMap.exists_mem_of_replaceDimsAndSymbols hmap' he
    exact ⟨e', he', (AffineExpr.usesDim_replaceDimsAndSymbols hrep k).mpr
      (.inl ⟨i, hei, .dim k, by simp [hr], by simp [AffineExpr.usesDim]⟩)⟩
  · intro k hk
    rw [hns] at hk
    obtain ⟨j, hj, huj, hr⟩ := hS.slot_used k hk
    obtain ⟨e, he, hej⟩ := List.any_eq_true.mp huj
    obtain ⟨e', he', hrep⟩ := AffineMap.exists_mem_of_replaceDimsAndSymbols hmap' he
    exact ⟨e', he', (AffineExpr.usesSymbol_replaceDimsAndSymbols hrep k).mpr
      (.inr ⟨j, hej, .symbol k, by simp [hr], by simp [AffineExpr.usesSymbol]⟩)⟩
  · rw [hnd, htake]
    simpa using hD.nodup
  · rw [hnd]
    exact hS.nodup
  · intro v hv
    rw [hnd, htake] at hv
    exact hD.subset v (by simpa using hv)
  · intro v hv
    rw [hnd] at hv
    exact hS.subset v hv
  · refine AffineMap.isWellFormed_of_replaceDimsAndSymbols hmap' (fun e he i hi => ?_)
      (fun e he j hj => ?_)
    · obtain ⟨k, hk, h1, -⟩ := hdimSlot e he i hi (hdlen ▸ AffineMap.usesDim_lt hwf he hi)
      exact ⟨_, h1, by simp [AffineExpr.isValidIn, hk]⟩
    · obtain ⟨k, hk, h1, -⟩ := hsymSlot e he j hj (hslen ▸ AffineMap.usesSymbol_lt hwf he hj)
      exact ⟨_, h1, by simp [AffineExpr.isValidIn, hk]⟩
  · refine AffineMap.evalOn_eq_of_replaceDimsAndSymbols hmap' (fun e he i hi => ?_)
      (fun e he j hj => ?_) ρ
    · have hlt := hdlen ▸ AffineMap.usesDim_lt hwf he hi
      obtain ⟨k, hk, h1, h2, h3⟩ := hdimSlot e he i hi hlt
      exact ⟨.dim k, dims[i], h1, by rw [← h2]; simp [hlt], by
        simp only [AffineMap.leafOperand, h3]; simp [hlt]⟩
    · have hlt := hslen ▸ AffineMap.usesSymbol_lt hwf he hj
      obtain ⟨k, hk, h1, h2, h3⟩ := hsymSlot e he j hj hlt
      exact ⟨.symbol k, syms[j], h1, by rw [← h2]; simp [hlt], by
        simp only [AffineMap.leafOperand, h3]; simp [hlt]⟩

/-- Canonical form: one operand per input, every position used, distinct dim operands, distinct
symbol operands, and no dim operand that is a valid symbol. -/
structure IsCanonical (ir : IR) (map : AffineMap) (operands : List Value) : Prop where
  length_eq : operands.length = map.numInputs
  dims_used : ∀ i < map.numDims, ∃ e ∈ map.results, e.usesDim i
  symbols_used : ∀ j < map.numSymbols, ∃ e ∈ map.results, e.usesSymbol j
  dims_nodup : (operands.take map.numDims).Nodup
  symbols_nodup : (operands.drop map.numDims).Nodup
  dims_not_symbol : ∀ v ∈ operands.take map.numDims, isValidSymbol ir v = false

/-- On one operand per input, canonicalization gives a canonical map with as many results over
input dims, then input symbols or promoted dims, and keeps a well-formed map's form and value. -/
theorem canonicalizeMapAndOperands_spec (ir : IR) (map : AffineMap) (operands : List Value)
    (hlen : operands.length = map.numInputs) :
    ∃ map' operands', canonicalizeMapAndOperands ir map operands = some (map', operands') ∧
      map'.results.length = map.results.length ∧ IsCanonical ir map' operands' ∧
      (∀ v ∈ operands'.take map'.numDims, v ∈ operands.take map.numDims ∧ isValidSymbol ir v = false) ∧
      (∀ v ∈ operands'.drop map'.numDims, v ∈ operands.drop map.numDims ∨
        (v ∈ operands.take map.numDims ∧ isValidSymbol ir v)) ∧
      (map.isWellFormed → map'.isWellFormed ∧
        ∀ ρ : Value → Int, map'.evalOn (operands'.map ρ) = map.evalOn (operands.map ρ)) := by
  by_cases hne : operands = []
  · subst hne
    have h0 : map.numDims = 0 ∧ map.numSymbols = 0 := by
      simp [AffineMap.numInputs] at hlen; omega
    refine ⟨map, [], by simp [canonicalizeMapAndOperands], rfl,
      ⟨hlen, by simp [h0.1], by simp [h0.2], by simp, by simp, by simp⟩, by simp, by simp,
      fun hwf => ⟨hwf, fun _ => rfl⟩⟩
  set dims := operands.take map.numDims
  set syms := operands.drop map.numDims
  have hsplit : dims ++ syms = operands := List.take_append_drop _ _
  have hdlen : dims.length = map.numDims := by simp [dims, hlen, AffineMap.numInputs]
  have hslen : syms.length = map.numSymbols := by simp [syms, hlen, AffineMap.numInputs]
  obtain ⟨map₁, hprom, hnd₁, hns₁, hrlen₁, hsem₁⟩ :=
    canonicalizePromotedSymbols_spec ir map dims syms hdlen hslen (hsplit ▸ hne)
  set kept := dims.filter (!isValidSymbol ir ·)
  set promoted := dims.filter (isValidSymbol ir)
  have hlen₁ : (kept ++ syms ++ promoted).length = map₁.numInputs := by
    simp [AffineMap.numInputs, hnd₁, hns₁, hslen, Nat.add_assoc]
  obtain ⟨map', operands', hdedup, hrlen', hlen', hdu, hsu, hdn, hsn, hdsub, hssub, hsem'⟩ :=
    dropUnusedAndMergeDuplicates_spec map₁ _ hlen₁
  have htake₁ : (kept ++ syms ++ promoted).take map₁.numDims = kept := by
    rw [hnd₁, List.append_assoc, List.take_left' rfl]
  have hdrop₁ : (kept ++ syms ++ promoted).drop map₁.numDims = syms ++ promoted := by
    rw [hnd₁, List.append_assoc, List.drop_left' rfl]
  refine ⟨map', operands', ?_, hrlen'.trans hrlen₁, ⟨hlen', hdu, hsu, hdn, hsn, ?_⟩, ?_, ?_,
    fun hwf => ?_⟩
  · rw [canonicalizeMapAndOperands, if_neg (by simpa using hne), ← hsplit, hprom]
    exact hdedup
  · intro v hv
    have := hdsub v hv
    rw [htake₁] at this
    simpa using (List.mem_filter.mp this).2
  · intro v hv
    have := hdsub v hv
    rw [htake₁] at this
    obtain ⟨hv, hp⟩ := List.mem_filter.mp this
    exact ⟨hv, by simpa using hp⟩
  · intro v hv
    have := hssub v hv
    rw [hdrop₁] at this
    rcases List.mem_append.mp this with h | h
    · exact .inl h
    · exact .inr (List.mem_filter.mp h)
  · obtain ⟨hwf₁, heval₁⟩ := hsem₁ hwf
    obtain ⟨hwf', heval'⟩ := hsem' hwf₁
    exact ⟨hwf', fun ρ => by rw [heval', heval₁, hsplit]⟩

/-- Canonicalization keeps the value of a well-formed map with one operand per input, under
every integer assignment of its operands. -/
theorem canonicalizeMapAndOperands_evalOn (ir : IR) (map : AffineMap) (operands : List Value)
    (hwf : map.isWellFormed) (hlen : operands.length = map.numInputs) :
    ∃ map' operands', canonicalizeMapAndOperands ir map operands = some (map', operands') ∧
      ∀ ρ : Value → Int, map'.evalOn (operands'.map ρ) = map.evalOn (operands.map ρ) := by
  obtain ⟨map', operands', h, -, -, -, -, hsem⟩ := canonicalizeMapAndOperands_spec ir map operands hlen
  exact ⟨map', operands', h, (hsem hwf).2⟩

/-- A function with a loop induction variable (value `0`) and an argument (value `1`). -/
def inductionVarAndArgument : IR := ⟨[⟨true, false, none⟩, ⟨true, true, none⟩], by decide⟩

/-- `(d0, d1) -> (d0 - d1)` applied to `(x, x)`. -/
def diffMap : AffineMap :=
  ⟨2, 0, [.binary .add (.dim 0) (.binary .mul (.dim 1) (.constant (-1)))]⟩

/-- The spec's `(d0, d1) -> (d0 - d1)` on `(x, x)` keeps its value. -/
theorem canonicalizeMapAndOperands_evalOn_diff_self :
    (diffMap.isWellFormed ∧ [0, 0].length = diffMap.numInputs) ∧
      ∃ map' operands', canonicalizeMapAndOperands inductionVarAndArgument diffMap [0, 0] =
        some (map', operands') ∧
        ∀ ρ : Value → Int, map'.evalOn (operands'.map ρ) = diffMap.evalOn ([0, 0].map ρ) :=
  ⟨⟨by decide, by decide⟩,
    canonicalizeMapAndOperands_evalOn inductionVarAndArgument diffMap [0, 0] (by decide) (by decide)⟩

/-- A well-formed map in canonical form is its own canonicalization. -/
theorem canonicalizeMapAndOperands_of_isCanonical (ir : IR) (map : AffineMap)
    (operands : List Value) (hwf : map.isWellFormed) (hc : IsCanonical ir map operands) :
    canonicalizeMapAndOperands ir map operands = some (map, operands) := by
  by_cases hne : operands = []
  · subst hne
    simp [canonicalizeMapAndOperands]
  set dims := operands.take map.numDims
  set syms := operands.drop map.numDims
  have hsplit : dims ++ syms = operands := List.take_append_drop _ _
  have hdlen : dims.length = map.numDims := by
    simp [dims, hc.length_eq, AffineMap.numInputs]
  have hkept : dims.filter (!isValidSymbol ir ·) = dims :=
    List.filter_eq_self.mpr fun v hv => by simp [hc.dims_not_symbol v hv]
  have hprom : dims.filter (isValidSymbol ir) = [] :=
    List.filter_eq_nil_iff.mpr fun v hv => by simp [hc.dims_not_symbol v hv]
  have hpromote : canonicalizePromotedSymbols ir map (dims ++ syms) = some (map, dims ++ syms) := by
    rw [canonicalizePromotedSymbols_eq ir map dims syms hdlen (hsplit ▸ hne), hkept, hprom,
      List.length_nil, Nat.add_zero, List.append_nil, hdlen,
      AffineMap.replaceDimsAndSymbols_eq_self (fun e he i hi => ?_) (fun e he j hj => by simp)]
    · rfl
    · have hlt : i < dims.length := hdlen ▸ AffineMap.usesDim_lt hwf he hi
      rw [List.getD_eq_getElem?_getD, promoteRemapping_of_forall_not ir map.numSymbols dims 0 0
        (fun v hv => hc.dims_not_symbol v hv) i hlt]
      simp
  set usedDims : Nat → Bool := fun i => map.results.any (·.usesDim i)
  set usedSyms : Nat → Bool := fun i => map.results.any (·.usesSymbol i)
  obtain ⟨hdres, hdnext, rs, hdrem, hrs⟩ := dedupLoop_of_nodup .dim usedDims 0 dims ⟨[], [], [], 0⟩
    (fun t ht => List.any_eq_true.mpr (by simpa using hc.dims_used t (hdlen ▸ ht)))
    hc.dims_nodup (by simp)
  have hslen : syms.length = map.numSymbols := by
    simp [syms, hc.length_eq, AffineMap.numInputs]
  obtain ⟨hsres, hsnext, rs', hsrem, hrs'⟩ := dedupLoop_of_nodup .symbol usedSyms 0 syms
    ⟨(dedupLoop .dim usedDims 0 dims ⟨[], [], [], 0⟩).resultOperands, [], [], 0⟩
    (fun t ht => List.any_eq_true.mpr (by simpa using hc.symbols_used t (hslen ▸ ht)))
    hc.symbols_nodup (by simp)
  have hdedup : dropUnusedAndMergeDuplicates map (dims ++ syms) = some (map, dims ++ syms) := by
    simp only [dropUnusedAndMergeDuplicates, List.take_left' hdlen, List.drop_left' hdlen]
    simp only at hdres hdnext hdrem hsres hsnext hsrem
    rw [hdnext, hsnext, hdrem, hsrem, hsres, hdres]
    simp only [Nat.zero_add, List.nil_append, hdlen, hslen]
    rw [AffineMap.replaceDimsAndSymbols_eq_self (fun e he i hi => ?_) (fun e he j hj => ?_)]
    · rfl
    · have hlt : i < dims.length := hdlen ▸ AffineMap.usesDim_lt hwf he hi
      rw [List.getD_eq_getElem?_getD, hrs i hlt]
      simp
    · have hlt : j < syms.length := hslen ▸ AffineMap.usesSymbol_lt hwf he hj
      rw [List.getD_eq_getElem?_getD, hrs' j hlt]
      simp
  rw [canonicalizeMapAndOperands, if_neg (by simpa using hne), ← hsplit, hpromote]
  exact hdedup

/-- On every well-formed map with one operand per input, canonicalization produces a
canonical map and operand list, and canonicalizing that output again returns it unchanged. -/
theorem canonicalizeMapAndOperands_canonical_idempotent (ir : IR) (map : AffineMap)
    (operands : List Value) (hwf : map.isWellFormed) (hlen : operands.length = map.numInputs) :
    ∃ map' operands', canonicalizeMapAndOperands ir map operands = some (map', operands') ∧
      IsCanonical ir map' operands' ∧
      canonicalizeMapAndOperands ir map' operands' = some (map', operands') := by
  obtain ⟨map', operands', h, -, hc, -, -, hsem⟩ := canonicalizeMapAndOperands_spec ir map operands hlen
  exact ⟨map', operands', h, hc,
    canonicalizeMapAndOperands_of_isCanonical ir map' operands' (hsem hwf).1 hc⟩

/-- The spec's `(d0, d1) -> (d0 - d1)` on `(x, x)` canonicalizes to a fixed point. -/
theorem canonicalizeMapAndOperands_canonical_idempotent_diff_self :
    (diffMap.isWellFormed ∧ [0, 0].length = diffMap.numInputs) ∧
      ∃ map' operands', canonicalizeMapAndOperands inductionVarAndArgument diffMap [0, 0] =
        some (map', operands') ∧ IsCanonical inductionVarAndArgument map' operands' ∧
        canonicalizeMapAndOperands inductionVarAndArgument map' operands' = some (map', operands') :=
  ⟨⟨by decide, by decide⟩, canonicalizeMapAndOperands_canonical_idempotent inductionVarAndArgument
    diffMap [0, 0] (by decide) (by decide)⟩

end Mlir
