import Sep2Client.Hash.Refine
import Sep2Client.Hash.Walk

/-!
# What `foreach_h` visits on a table that stands for a map

`foreach_h` reads a table group by group and slot by slot, where `hash_find` reads it position by
position.  In a well-formed group the `r`-th slot belongs to the `r`-th set bit of the bitmap, so
the walk visits the data of the occupied positions in the order of the positions
(`hashElements_eq_filterMap_dataAt`).  On a table that stands for a map no position from `size` on
is occupied and each key sits at one position, so `foreach_h` visits every data of the map once
and nothing else (`foreachH_refines`).  A history of puts and gets within `max` from
`hash_new (2 ^ n)` leaves such a table (`foreachH_run_mapState`).
-/

namespace Sep2Client

variable {D K : Type}

open HashTable SparseGroup

/-! ## The slots of a group are its set bits in order -/

/-- The ranks of the set bits below `k`, in order, are `0, 1, …` up to their number. -/
theorem filterMap_range_bitsBelow (n : Nat) : ∀ k,
    (List.range k).filterMap (fun p => if n.testBit p then some (bitsBelow n p) else none) =
      List.range (bitsBelow n k)
  | 0 => rfl
  | k + 1 => by
    rw [List.range_succ, List.filterMap_append, filterMap_range_bitsBelow n k, bitsBelow_succ]
    cases hb : n.testBit k <;> simp [List.range_succ, hb]

/-- Reading a list of entries index by index, from `s` on, keeps its entries that are not NULL. -/
theorem filterMap_range'_eq {f : Nat → Option D} : ∀ (l : List (Option D)) (s : Nat),
    (∀ r < l.length, f (s + r) = l[r]?.join) → (List.range' s l.length).filterMap f = l.filterMap id
  | [], _, _ => rfl
  | x :: l, s, h => by
    have hx : f s = x := by simpa using h 0 (Nat.succ_pos _)
    have hl : ∀ r < l.length, f (s + 1 + r) = l[r]?.join := fun r hr => by
      rw [show s + 1 + r = s + (r + 1) by omega]
      simpa using h (r + 1) (Nat.succ_lt_succ hr)
    rw [List.length_cons, List.range'_succ, List.filterMap_cons, hx, filterMap_range'_eq l (s + 1) hl]
    cases x <;> rfl

/-- The elements of a well-formed group are the entries of its set bits, in the order of the
bits. -/
theorem groupElements_eq_filterMap {g : SparseGroup D} (hg : g.WellFormed) :
    groupElements g = (List.range 58).filterMap
      (fun p => if g.bits.toNat.testBit p then (g.slot[sgElement g p]?).join else none) := by
  have hranks : (List.range 58).filterMap
      (fun p => if g.bits.toNat.testBit p then (g.slot[sgElement g p]?).join else none) =
      ((List.range 58).filterMap
        (fun p => if g.bits.toNat.testBit p then some (bitsBelow g.bits.toNat p) else none)).filterMap
        (fun r => (g.slot[r]?).join) := by
    rw [List.filterMap_filterMap]
    refine List.filterMap_congr fun p hp => ?_
    rw [sgElement, bitRank_eq_bitsBelow g.bits (by have := List.mem_range.mp hp; omega)]
    cases g.bits.toNat.testBit p <;> rfl
  rw [hranks, filterMap_range_bitsBelow, groupElements, ← hg.1, ← hg.2, List.take_length,
    List.range_eq_range', filterMap_range'_eq g.slot 0 fun r _ => by rw [Nat.zero_add]]

/-- The first `n` groups of a table of well-formed groups hold the data of the first `58 * n`
positions, in order. -/
theorem flatMap_take_groupElements {t : HashTable D} (hwf : t.GroupsWellFormed) :
    ∀ n ≤ t.table.length,
      (t.table.take n).flatMap groupElements = (List.range (58 * n)).filterMap t.dataAt
  | 0, _ => rfl
  | n + 1, hn => by
    obtain ⟨g, hg⟩ : ∃ g, t.table[n]? = some g := ⟨_, List.getElem?_eq_getElem hn⟩
    have hgw := hwf g (List.getElem?_mem hg)
    rw [List.take_succ, hg, Option.toList_some, List.flatMap_append,
      flatMap_take_groupElements hwf n (by omega), Nat.mul_succ, List.range_add, List.filterMap_append,
      List.filterMap_map, List.flatMap_singleton, groupElements_eq_filterMap hgw]
    refine congrArg _ (List.filterMap_congr fun p hp => ?_)
    have hp : p < 58 := List.mem_range.mp hp
    have hx : (58 * n + p) / 58 = n := by omega
    rw [Function.comp_apply, dataAt_eq_testBit (by rw [hx]; exact hg) hgw,
      show (58 * n + p) % 58 = p by omega]

/-- A table of well-formed groups is walked position by position: `foreach_h` reads the data of
the occupied positions in increasing order. -/
theorem hashElements_eq_filterMap_dataAt {t : HashTable D} (hwf : t.GroupsWellFormed) :
    hashElements t = (List.range (58 * t.table.length)).filterMap t.dataAt := by
  rw [← flatMap_take_groupElements hwf _ le_rfl, List.take_length]
  rfl

/-! ## A table that stands for a map -/

section Refines

variable {P : HashPolicy D K} {t : HashTable D} {m : K → Option D} {dom : Finset K}
  (ht : Refines P t m dom)
include ht

/-- Only a position below `size` holds data. -/
theorem Refines.lt_size_of_dataAt {x : Nat} {d : D} (hd : t.dataAt x = some d) : x < t.size := by
  by_contra hx
  have := ht.clear_above x (Nat.le_of_not_lt hx) (lt_length_of_dataAt hd)
  rw [stopsProbe_of_dataAt hd] at this
  cases this

/-- The walk of a table that stands for a map reads the positions below `size`, in order. -/
theorem Refines.hashElements_eq : hashElements t = (List.range t.size).filterMap t.dataAt := by
  obtain ⟨k, hk⟩ : ∃ k, 58 * t.table.length = t.size + k :=
    ⟨_, (Nat.add_sub_of_le (by rw [ht.length_table]; omega)).symm⟩
  have htail : (List.range k).filterMap (t.dataAt ∘ fun x => t.size + x) = [] :=
    List.filterMap_eq_nil_iff.mpr fun x _ => Option.eq_none_iff_forall_not_mem.mpr
      fun _ (hd : t.dataAt (t.size + x) = some _) => absurd (ht.lt_size_of_dataAt hd) (by omega)
  rw [hashElements_eq_filterMap_dataAt ht.wellFormed, hk, List.range_add, List.filterMap_append,
    List.filterMap_map, htail, List.append_nil]

/-- On a table of a positive size that stands for `m`, `foreach_h` ends without a fault, visits
each key once, and visits exactly the data of `m`. -/
theorem foreachH_refines (hsize : 0 < t.size) :
    ∃ l, foreachH t = .ok l ∧ (l.map P.getKey).Nodup ∧ ∀ d, d ∈ l ↔ m (P.getKey d) = some d := by
  have hne : t.table ≠ [] :=
    List.ne_nil_of_length_pos (by rw [ht.length_table]; omega)
  refine ⟨_, foreachH_eq_hashElements hne fun g hg => (ht.wellFormed g hg).2.ge, ?_, fun d => ?_⟩
  · rw [ht.hashElements_eq, List.map_filterMap]
    refine (List.nodup_range _).filterMap fun x x' k hk hk' => ?_
    obtain ⟨d, hd, rfl⟩ := Option.mem_map.mp hk
    obtain ⟨d', hd', hkd⟩ := Option.mem_map.mp hk'
    exact ht.unique x (ht.lt_size_of_dataAt hd) x' (ht.lt_size_of_dataAt hd') d d' hd hd' hkd.symm
  · rw [ht.hashElements_eq, List.mem_filterMap]
    constructor
    · rintro ⟨x, hx, hd⟩
      exact (ht.stored x (List.mem_range.mp hx) d hd).1
    · intro hd
      obtain ⟨x, hx, hdx⟩ := ht.present _ d hd
      exact ⟨x, List.mem_range.mpr hx, hdx⟩

end Refines

/-- After a history of `hash_put` and `hash_get` calls on `hash_new (2 ^ n)` that puts at most
`max` distinct keys, `foreach_h` ends without a fault and visits every data of the map the history
leaves exactly once, and nothing else. -/
theorem foreachH_run_mapState (P : HashPolicy D K) [DecidableEq K]
    (hcmp : ∀ a b, P.compare a b = 0 ↔ a = b) (n : Nat) (ops : List (Op D K))
    (hops : ∀ k, Op.delete k ∉ ops) (hfit : (putKeys P.getKey ops).toFinset.card ≤ 2 ^ n * 80 / 100) :
    ∃ t l, run P (hashNew (2 ^ n)) ops = .ok (mapRun P.getKey (fun _ => none) ops, t) ∧
      foreachH t = .ok l ∧ (l.map P.getKey).Nodup ∧
      ∀ d, d ∈ l ↔ mapState P.getKey (fun _ => none) ops (P.getKey d) = some d := by
  obtain ⟨t, _, h, ht, hsize⟩ := run_hashNew_refines P hcmp n ops hops hfit
  obtain ⟨l, hl, hnd, hmem⟩ := foreachH_refines ht (hsize ▸ Nat.two_pow_pos n)
  exact ⟨t, l, h, hl, hnd, hmem⟩

/-- Keys `1` and `9` put on a size-8 table, `1` put again, and gets between: the walk visits the
two data once each. -/
theorem foreachH_run_mapState_keys :
    (∀ a b, keyPolicy.compare a b = 0 ↔ a = b) ∧
      (∀ k, Op.delete k ∉ ([.put 1, .put 9, .get 1, .put 1, .get 2] : List (Op UInt64 UInt64))) ∧
      (putKeys keyPolicy.getKey ([.put 1, .put 9, .get 1, .put 1, .get 2] : List (Op UInt64 UInt64))).toFinset.card ≤
        2 ^ 3 * 80 / 100 ∧
      ∃ t l, run keyPolicy (hashNew (2 ^ 3)) [.put 1, .put 9, .get 1, .put 1, .get 2] =
          .ok (mapRun keyPolicy.getKey (fun _ => none) [.put 1, .put 9, .get 1, .put 1, .get 2], t) ∧
        foreachH t = .ok l ∧ (l.map keyPolicy.getKey).Nodup ∧
        ∀ d, d ∈ l ↔ mapState keyPolicy.getKey (fun _ => none) [.put 1, .put 9, .get 1, .put 1, .get 2]
          (keyPolicy.getKey d) = some d :=
  ⟨fun _ _ => int64Compare_eq_zero, by simp, by decide,
    foreachH_run_mapState keyPolicy (fun _ _ => int64Compare_eq_zero) 3 _ (by simp) (by decide)⟩

end Sep2Client
