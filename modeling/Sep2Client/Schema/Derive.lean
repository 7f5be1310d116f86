import Sep2Client.Schema.Core

/-!
# Derivation in a schema

`type_is_a (type, base)` follows the `index` fields of the schema's entries from the entry of
`type`: the header of a complex type names its base type, and `0` ends the chain.  `se_is_a` first
reads a base below `length`, an element, as the element's type, and answers no for a simple entry
without walking.

A chain that loops without meeting `0` or the base keeps the C loop running forever.  The model's
loop has fuel for one pass per entry and two more, and that fuel is never what stops it: if any
number of passes answers, these do (`seIsALoop_adequate`).  Before it stops, a chain visits only
indices of entries (an index past the array reads a zero entry, whose `index` ends the chain), and
a chain that visits one twice runs in a cycle forever, so the pigeonhole principle bounds the
passes.

With the fuel out of the way, `type_is_a` is transitive (`typeIsA_trans`): a chain that reaches
`base` goes on as the chain of `base` does.
-/

namespace Sep2Client

/-- One step of a derivation chain: the `index` of the entry at `i`. -/
def baseOf (S : Schema) (i : Nat) : Nat := (S.entry i).index

/-- The `while (se->index)` loop of `se_is_a` for at most `fuel` passes, the entry `se` standing
for its `index` `i`: no at `0`, yes at `base`, and on to the entry `i` otherwise. -/
def seIsALoop (S : Schema) (base : Nat) : Nat → Nat → Option Bool
  | 0, _ => none
  | fuel + 1, i =>
    if i = 0 then some false else if i = base then some true else seIsALoop S base fuel (baseOf S i)

/-- `se_is_a (se, base, schema)`: a base below `length` is an element, read as its type; a simple
entry is derived from nothing.  One pass per entry, one for an index past the array and one more. -/
def seIsA (S : Schema) (se : SchemaEntry) (base : Nat) : Option Bool :=
  let base := if base < S.length then baseOf S base else base
  if se.isSimple then some false else seIsALoop S base (S.entries.length + 2) se.index

/-- `type_is_a (type, base, schema)`. -/
def typeIsA (S : Schema) (type base : Nat) : Option Bool := seIsA S (S.entry type) base

/-- The chain `b` is reached on: `b` at some step, with no `0` up to it. -/
def Reaches (S : Schema) (b i : Nat) : Prop :=
  ∃ k, (∀ m ≤ k, (baseOf S)^[m] i ≠ 0) ∧ (baseOf S)^[k] i = b

section Loop

variable {S : Schema} {b : Nat}

/-- Only the entry of an index of the array has a base. -/
theorem lt_length_of_baseOf_ne_zero {i : Nat} (h : baseOf S i ≠ 0) : i < S.entries.length := by
  by_contra hi
  exact h (by simp [baseOf, Schema.entry, List.getD_eq_getElem?_getD,
    List.getElem?_eq_none (Nat.le_of_not_lt hi), SchemaEntry.index, SchemaEntry.zero])

/-- Passes over indices that are neither `0` nor `b` follow the chain. -/
theorem seIsALoop_iterate : ∀ (m F i : Nat),
    (∀ m' < m, (baseOf S)^[m'] i ≠ 0 ∧ (baseOf S)^[m'] i ≠ b) →
      seIsALoop S b (F + m) i = seIsALoop S b F ((baseOf S)^[m] i)
  | 0, _, _, _ => rfl
  | m + 1, F, i, h => by
    obtain ⟨h0, hb⟩ : i ≠ 0 ∧ i ≠ b := h 0 (Nat.succ_pos m)
    rw [← Nat.add_assoc, seIsALoop, if_neg h0, if_neg hb, Function.iterate_succ_apply]
    exact seIsALoop_iterate m F (baseOf S i) fun m' hm' => by
      rw [← Function.iterate_succ_apply]; exact h (m' + 1) (by omega)

/-- A chain that never meets `0` or `b` keeps the loop running whatever the fuel. -/
theorem seIsALoop_none (h : ∀ m i', i' = (baseOf S)^[m] i → i' ≠ 0 ∧ i' ≠ b) :
    ∀ F, seIsALoop S b F ((baseOf S)^[n] i) = none
  | 0 => rfl
  | F + 1 => by
    obtain ⟨h0, hb⟩ := h n _ rfl
    rw [seIsALoop, if_neg h0, if_neg hb, ← Function.iterate_succ_apply' (baseOf S)]
    exact seIsALoop_none h F

/-- A chain that comes back to an index before it stops never stops. -/
theorem never_stops_of_cycle {i p q : Nat} (hpq : p < q)
    (hrun : ∀ m < q, (baseOf S)^[m] i ≠ 0 ∧ (baseOf S)^[m] i ≠ b)
    (hcyc : (baseOf S)^[p] i = (baseOf S)^[q] i) :
    ∀ m, (baseOf S)^[m] i ≠ 0 ∧ (baseOf S)^[m] i ≠ b := by
  intro m
  induction m using Nat.strong_induction_on with
  | _ m ih =>
    by_cases hm : m < q
    · exact hrun m hm
    · have hback : (baseOf S)^[m] i = (baseOf S)^[m - q + p] i := by
        rw [show m = m - q + q by omega, Function.iterate_add_apply, ← hcyc,
          ← Function.iterate_add_apply, Nat.add_sub_cancel]
      rw [hback]
      exact ih _ (by omega)

/-- A loop that stops at the first index that is `0` or `b`, at step `k`, answers whether it is not
`0`, given more passes than `k`. -/
theorem seIsALoop_first {i k F : Nat} (hk : k < F)
    (hrun : ∀ m < k, (baseOf S)^[m] i ≠ 0 ∧ (baseOf S)^[m] i ≠ b)
    (hstop : (baseOf S)^[k] i = 0 ∨ (baseOf S)^[k] i = b) :
    seIsALoop S b F i = some (decide ((baseOf S)^[k] i ≠ 0)) := by
  rw [show F = F - k - 1 + 1 + k by omega, seIsALoop_iterate k _ i hrun, seIsALoop]
  by_cases h0 : (baseOf S)^[k] i = 0
  · rw [if_pos h0, h0]
    rfl
  · rw [if_neg h0, if_pos (hstop.resolve_left h0), decide_eq_true h0]

/-- A chain that stops has a first stop. -/
theorem exists_first_stop {i : Nat} (hex : ∃ k, (baseOf S)^[k] i = 0 ∨ (baseOf S)^[k] i = b) :
    ∃ k, (∀ m < k, (baseOf S)^[m] i ≠ 0 ∧ (baseOf S)^[m] i ≠ b) ∧
      ((baseOf S)^[k] i = 0 ∨ (baseOf S)^[k] i = b) := by
  classical
  exact ⟨Nat.find hex, fun m hm => not_or.mp (Nat.find_min hex hm), Nat.find_spec hex⟩

/-- The fuel of `se_is_a` is never what stops it: a loop that answers with some fuel answers the
same with one pass per entry and two more. -/
theorem seIsALoop_adequate {F i : Nat} {r : Bool} (h : seIsALoop S b F i = some r) :
    seIsALoop S b (S.entries.length + 2) i = some r := by
  set N := S.entries.length
  by_cases hstop : ∃ k, k ≤ N + 1 ∧ ((baseOf S)^[k] i = 0 ∨ (baseOf S)^[k] i = b)
  · -- the chain stops within the passes: both loops answer at the first stop
    obtain ⟨k', hk', hs'⟩ := hstop
    obtain ⟨k, hrun, hs⟩ := exists_first_stop ⟨k', hs'⟩
    have hkN : k ≤ N + 1 := by
      by_contra hk
      rcases hs' with h' | h'
      · exact (hrun k' (by omega)).1 h'
      · exact (hrun k' (by omega)).2 h'
    have hkF : k < F := by
      by_contra hF
      rw [show F = 0 + F by omega, seIsALoop_iterate F 0 i fun m hm => hrun m (by omega)] at h
      cases h
    rw [seIsALoop_first (by omega) hrun hs, ← h, seIsALoop_first hkF hrun hs]
  · -- otherwise the first `N + 1` indices are indices of entries, so two are equal
    push_neg at hstop
    have hin : ∀ k ∈ Finset.range (N + 1), (baseOf S)^[k] i ∈ Finset.range N := fun k hk => by
      have hk := Finset.mem_range.mp hk
      have hnext := (hstop (k + 1) (by omega)).1
      rw [Function.iterate_succ_apply'] at hnext
      exact Finset.mem_range.mpr (lt_length_of_baseOf_ne_zero hnext)
    obtain ⟨x, hx, y, hy, hxy, heq⟩ := Finset.exists_ne_map_eq_of_card_lt_of_maps_to
      (by simp only [Finset.card_range]; omega) hin
    have hx := Finset.mem_range.mp hx
    have hy := Finset.mem_range.mp hy
    have hloop : ∀ m, (baseOf S)^[m] i ≠ 0 ∧ (baseOf S)^[m] i ≠ b := by
      rcases Nat.lt_or_gt_of_ne hxy with hlt | hlt
      · exact never_stops_of_cycle hlt (fun m hm => hstop m (by omega)) heq
      · exact never_stops_of_cycle hlt (fun m hm => hstop m (by omega)) heq.symm
    have := seIsALoop_none (n := 0) (fun m i' hi' => hi' ▸ hloop m) F
    rw [Function.iterate_zero_apply, h] at this
    cases this

/-- A chain that stops makes the loop of `se_is_a` answer at its first stop. -/
theorem seIsALoop_stops {i : Nat} (hex : ∃ k, (baseOf S)^[k] i = 0 ∨ (baseOf S)^[k] i = b) :
    ∃ k, (∀ m < k, (baseOf S)^[m] i ≠ 0 ∧ (baseOf S)^[m] i ≠ b) ∧
      seIsALoop S b (S.entries.length + 2) i = some (decide ((baseOf S)^[k] i ≠ 0)) := by
  obtain ⟨k, hrun, hs⟩ := exists_first_stop hex
  exact ⟨k, hrun, seIsALoop_adequate (seIsALoop_first (Nat.lt_succ_self k) hrun hs)⟩

/-- A loop that answers yes has reached `b`. -/
theorem reaches_of_seIsALoop : ∀ {F i : Nat}, seIsALoop S b F i = some true → Reaches S b i
  | 0, _, h => by cases h
  | F + 1, i, h => by
    rw [seIsALoop] at h
    split_ifs at h with h0 hb
    · cases h
    · exact ⟨0, fun m hm => by rw [Nat.le_zero.mp hm]; exact h0, hb⟩
    · obtain ⟨k, hk, hkb⟩ := reaches_of_seIsALoop h
      refine ⟨k + 1, fun m hm => ?_, by rw [Function.iterate_succ_apply]; exact hkb⟩
      cases m with
      | zero => exact h0
      | succ m => rw [Function.iterate_succ_apply]; exact hk m (by omega)

/-- A chain that reaches `b` makes the loop of `se_is_a` answer yes. -/
theorem seIsALoop_of_reaches {i : Nat} (h : Reaches S b i) :
    seIsALoop S b (S.entries.length + 2) i = some true := by
  obtain ⟨k, hk, hkb⟩ := h
  obtain ⟨k', hrun, hloop⟩ := seIsALoop_stops ⟨k, .inr hkb⟩
  have hle : k' ≤ k := by
    by_contra hkk
    exact (hrun k (by omega)).2 hkb
  rw [hloop, decide_eq_true (hk _ hle)]

/-- A chain that passes through the start of a chain reaching `b` reaches `b`. -/
theorem Reaches.of_iterate {i j s : Nat} (h : Reaches S b j) (hs : (baseOf S)^[s] i = j)
    (hrun : ∀ m ≤ s, (baseOf S)^[m] i ≠ 0) : Reaches S b i := by
  obtain ⟨l, hl, hlb⟩ := h
  refine ⟨l + s, fun m hm => ?_, by rw [Function.iterate_add_apply, hs, hlb]⟩
  by_cases hms : m ≤ s
  · exact hrun m hms
  · rw [show m = m - s + s by omega, Function.iterate_add_apply, hs]
    exact hl _ (by omega)

end Loop

/-- `type_is_a` is transitive: a type derived from `b`, itself derived from `c`, is derived from
`c`, whether `b` names a type or an element. -/
theorem typeIsA_trans {S : Schema} {a b c : Nat} (hab : typeIsA S a b = some true)
    (hbc : typeIsA S b c = some true) : typeIsA S a c = some true := by
  unfold typeIsA seIsA at hab hbc ⊢
  simp only at hab hbc ⊢
  have ha : ¬(S.entry a).isSimple := fun h => by rw [if_pos h] at hab; cases hab
  have hb : ¬(S.entry b).isSimple := fun h => by rw [if_pos h] at hbc; cases hbc
  rw [if_neg ha] at hab ⊢
  rw [if_neg hb] at hbc
  obtain ⟨k, hk, hkb⟩ := reaches_of_seIsALoop hab
  have hc := reaches_of_seIsALoop hbc
  refine seIsALoop_of_reaches ?_
  have hb0 : (S.entry b).index ≠ 0 := by
    obtain ⟨l, hl, -⟩ := hc; exact hl 0 (Nat.zero_le _)
  by_cases hbl : b < S.length
  · -- `b` is an element: the chain of `a` reaches its type, where the chain of `b` starts
    rw [if_pos hbl] at hkb
    exact hc.of_iterate hkb hk
  · -- `b` is a type: one more step from `b` is where the chain of `b` starts
    rw [if_neg hbl] at hkb
    refine hc.of_iterate (s := k + 1) (by rw [Function.iterate_succ_apply', hkb]; rfl) fun m hm => ?_
    rcases Nat.lt_or_ge m (k + 1) with hmk | hmk
    · exact hk m (by omega)
    · rw [show m = k + 1 by omega, Function.iterate_succ_apply', hkb]; exact hb0

/-- Three types, each derived from the one before: `3` from `2` and `2` from `1`, so `3` from
`1`. -/
theorem typeIsA_trans_chain :
    let S : Schema := ⟨[], 0, 0, [], [], [.zero, .zero, { SchemaEntry.zero with type := 1 },
      { SchemaEntry.zero with type := 2 }], [], []⟩
    typeIsA S 3 2 = some true ∧ typeIsA S 2 1 = some true ∧ typeIsA S 3 1 = some true :=
  ⟨by decide, by decide, typeIsA_trans (b := 2) (by decide) (by decide)⟩

/-- `type_is_a` runs forever exactly when the model answers nothing: for a complex type whose
derivation chain never meets `0` or the base, an element base read as its type. -/
theorem typeIsA_eq_none_iff {S : Schema} {type base : Nat} :
    typeIsA S type base = none ↔ ¬(S.entry type).isSimple ∧
      ∀ m, (baseOf S)^[m] (S.entry type).index ≠ 0 ∧
        (baseOf S)^[m] (S.entry type).index ≠ (if base < S.length then baseOf S base else base) := by
  unfold typeIsA seIsA
  simp only
  by_cases hs : (S.entry type).isSimple
  · simp [hs]
  · rw [if_neg hs]
    constructor
    · intro h
      refine ⟨hs, fun m => ?_⟩
      by_contra hm
      obtain ⟨k, -, hloop⟩ := seIsALoop_stops (b := if base < S.length then baseOf S base else base)
        ⟨m, by rwa [not_and_or, not_not, not_not] at hm⟩
      rw [hloop] at h
      cases h
    · rintro ⟨-, hrun⟩
      exact seIsALoop_none (n := 0) (fun m i' hi' => hi' ▸ hrun m) _

end Sep2Client
