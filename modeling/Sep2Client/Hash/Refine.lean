import Sep2Client.Hash.Occupancy
import Sep2Client.Hash.Probe

/-!
# Puts and gets on a table that never grows answer as the finite map

`hash.c` is meant to implement a finite map from keys to data.  `Sep2Client.Hash.History` shows
where it does not: a growth re-inserts at a stale mark, a shrink miscounts, and a put after a
delete can insert over a tombstone.  This file proves that nothing else goes wrong.  On a table of
size `2 ^ n`, every history of `hash_put` and `hash_get` calls that puts at most `max` distinct
keys (so that no put grows the table) runs without fault, and each call answers what the finite
map answers (`run_hashNew_eq_mapRun`).

The proof reads the table position by position.  Index `i` is occupied when it does not end the
probe loop (`stopsProbe`), and then holds `dataAt i`.  `Refines` is the invariant that ties the
positions to the map: every occupied index holds live data, stored under its own key in the map
and reachable from that key's start through occupied positions only; every key sits at one index;
the number of occupied indices is the number of keys, which is `items`; and no position of the
last group from `size` on is occupied.

* `sg_insert` at a clear position sets one bit and keeps every other position's entry
  (`sgInsert_getElem?_self`, `sgInsert_getElem?_of_ne`), so inserting at an empty index changes
  only that index (`stopsProbe_insertAt`, `dataAt_insertAt`).
* `hash_find` walks the probe sequence of its key: a key of the map is found at its index
  (`hashFind_present`); any other key stops at the first empty probe, which exists because the
  probe sequence of a table of size `2 ^ n` visits every index and fewer than `size` are occupied
  (`hashFind_absent`).
* `hash_put` then stores through the entry found, or inserts at that first empty probe
  (`hashPut_present`, `hashPut_absent`), and both keep `Refines` (`Refines.store`,
  `Refines.insertAt`); `hash_get` answers the map (`hashGet_eq`).
* A whole history then refines the map by induction over its calls (`run_refines`), from the new
  table, which stands for the empty map (`refines_hashNew`), and leaves a table that stands for the
  map the history leaves (`mapState`).
-/

namespace Sep2Client

/-! ## Inserting into a slot array -/

section InsertIdx

variable {α : Type} (x : α)

theorem getElem?_insertIdx_of_lt : ∀ (l : List α) {n k : Nat}, k < n → (l.insertIdx n x)[k]? = l[k]?
  | _, 0, k, h => absurd h (Nat.not_lt_zero k)
  | [], _ + 1, _, _ => rfl
  | _ :: _, _ + 1, 0, _ => by simp only [List.insertIdx_succ_cons, List.getElem?_cons_zero]
  | _ :: l, n + 1, k + 1, h => by
    simp only [List.insertIdx_succ_cons, List.getElem?_cons_succ]
    exact getElem?_insertIdx_of_lt l (by omega : k < n)

theorem getElem?_insertIdx_self : ∀ (l : List α) {n : Nat}, n ≤ l.length → (l.insertIdx n x)[n]? = some x
  | _, 0, _ => by simp only [List.insertIdx_zero, List.getElem?_cons_zero]
  | [], _ + 1, h => absurd h (by simp)
  | _ :: l, n + 1, h => by
    simp only [List.insertIdx_succ_cons, List.getElem?_cons_succ]
    exact getElem?_insertIdx_self l (by simpa using h)

theorem getElem?_insertIdx_succ : ∀ (l : List α) {n k : Nat}, n ≤ k → n ≤ l.length →
    (l.insertIdx n x)[k + 1]? = l[k]?
  | _, 0, _, _, _ => by simp only [List.insertIdx_zero, List.getElem?_cons_succ]
  | [], _ + 1, _, _, h => absurd h (by simp)
  | _ :: _, _ + 1, 0, hk, _ => absurd hk (by omega)
  | _ :: l, n + 1, k + 1, hk, h => by
    simp only [List.insertIdx_succ_cons, List.getElem?_cons_succ]
    exact getElem?_insertIdx_succ l (by omega : n ≤ k) (by simpa using h)

end InsertIdx

/-! ## One group, one insertion at a clear position -/

namespace SparseGroup

variable {D : Type} {g : SparseGroup D}

/-- A well-formed group counts at most `58` slots, so its six-bit count has room for one more. -/
theorem WellFormed.count_lt (hg : g.WellFormed) : g.count < 63 := by
  have := bitsBelow_le g.bits.toNat 58
  have := hg.1
  omega

/-- In a well-formed group the rank of a position is at most the number of slots. -/
theorem WellFormed.bitRank_le (hg : g.WellFormed) {p : Nat} (hp : p ≤ 58) :
    bitRank g.bits p ≤ g.slot.length := by
  rw [bitRank_eq_bitsBelow g.bits (by omega), hg.2, hg.1]
  exact bitsBelow_mono _ hp

/-- A set bit lies above every rank below it: the rank of `q` is less than the rank of any later
position. -/
theorem bitRank_lt_of_testBit (g : SparseGroup D) {q p : Nat} (hqp : q < p) (hp : p < 64)
    (hset : g.bits.toNat.testBit q = true) : bitRank g.bits q < bitRank g.bits p := by
  have hle := bitsBelow_mono g.bits.toNat (show q + 1 ≤ p from hqp)
  rw [bitsBelow_succ, hset] at hle
  rw [bitRank_eq_bitsBelow g.bits (by omega), bitRank_eq_bitsBelow g.bits hp]
  simp only [Bool.toNat_true] at hle
  omega

/-- In a well-formed group a position ends the probe loop exactly when its bit is clear: a set bit
means a nonzero count, hence a slot array. -/
theorem WellFormed.stops_eq (hg : g.WellFormed) {q : Nat} (hq : q < 58) :
    (g.slot.isEmpty || sgEmpty g q) = !g.bits.toNat.testBit q := by
  cases hb : g.bits.toNat.testBit q
  · rw [(sgEmpty_iff g (by omega)).mpr hb, Bool.or_true, Bool.not_false]
  · have hle := bitsBelow_mono g.bits.toNat (show q + 1 ≤ 58 from hq)
    rw [bitsBelow_succ, hb] at hle
    have hne : g.slot ≠ [] := fun h => by
      have := hg.2
      rw [h, hg.1, List.length_nil] at this
      simp only [Bool.toNat_true] at hle
      omega
    have hs : sgEmpty g q = false := by
      cases h : sgEmpty g q
      · rfl
      · rw [(sgEmpty_iff g (by omega)).mp h] at hb; cases hb
    rw [hs, Bool.or_false, Bool.not_true]
    exact Bool.eq_false_iff.mpr fun h => hne (List.isEmpty_iff.mp h)

/-- A store into a slot keeps a group well formed. -/
theorem WellFormed.set (hg : g.WellFormed) (n : Nat) (v : Option D) :
    (⟨g.slot.set n v, g.bits⟩ : SparseGroup D).WellFormed :=
  ⟨hg.1, (List.length_set _ _ _).trans hg.2⟩

section Insert

variable (hg : g.WellFormed) {p : Nat} (hp : p < 58) (hclear : g.bits.toNat.testBit p = false)
include hg hp hclear

/-- `sg_insert` at a clear position keeps a group well formed. -/
theorem wellFormed_sgInsert (data : D) : (sgInsert g p data).WellFormed := by
  have hbits := @bitsBelow_set_bit g.bits.toNat (sgInsert g p data).bits.toNat p 58 hp
    fun j hj => sgInsert_testBit g hp data hj
  simp only [hclear, Bool.false_eq_true, if_false] at hbits
  exact ⟨by rw [sgInsert_count g data hp hg.count_lt, hbits, hg.1],
    by rw [sgInsert_slot_length g p data (hg.bitRank_le hp.le), sgInsert_count g data hp hg.count_lt,
      hg.2]⟩

omit hg in
/-- The rank of position `q` after `sg_insert` at the clear position `p`: one more when `p` lies
below `q`. -/
theorem sgElement_sgInsert {q : Nat} (hq : q < 58) (data : D) :
    sgElement (sgInsert g p data) q = sgElement g q + if p < q then 1 else 0 := by
  unfold sgElement
  rw [bitRank_eq_bitsBelow _ (by omega : q < 64), bitRank_eq_bitsBelow _ (by omega : q < 64)]
  split_ifs with hpq
  · rw [bitsBelow_set_bit hpq fun j hj => sgInsert_testBit g hp data (by omega), hclear]
    rfl
  · rw [Nat.add_zero]
    exact bitsBelow_congr fun j hj => by
      rw [sgInsert_testBit g hp data (by omega), decide_eq_false (by omega : j ≠ p), Bool.or_false]

/-- `sg_insert` stores its data at the rank of its position. -/
theorem sgInsert_getElem?_self (data : D) :
    (sgInsert g p data).slot[sgElement (sgInsert g p data) p]? = some (some data) := by
  rw [sgElement_sgInsert hp hclear hp, if_neg (lt_irrefl p), Nat.add_zero]
  exact getElem?_insertIdx_self _ _ (hg.bitRank_le hp.le)

/-- `sg_insert` at the clear position `p` keeps the entry of every other occupied position. -/
theorem sgInsert_getElem?_of_ne {q : Nat} (hq : q < 58) (hqp : q ≠ p)
    (hset : g.bits.toNat.testBit q = true) (data : D) :
    (sgInsert g p data).slot[sgElement (sgInsert g p data) q]? = g.slot[sgElement g q]? := by
  rw [sgElement_sgInsert hp hclear hq]
  split_ifs with hpq
  · have hle : bitRank g.bits p ≤ bitRank g.bits q := by
      rw [bitRank_eq_bitsBelow g.bits (by omega), bitRank_eq_bitsBelow g.bits (by omega)]
      exact bitsBelow_mono _ hpq.le
    exact getElem?_insertIdx_succ _ _ hle (hg.bitRank_le hp.le)
  · rw [Nat.add_zero]
    exact getElem?_insertIdx_of_lt _ _ (bitRank_lt_of_testBit g (by omega) (by omega) hset)

end Insert

end SparseGroup

/-! ## The table position by position -/

variable {D K : Type}

namespace HashTable

/-- The slot `hash_find` reads for index `i`: `sg_element` of its position in its group. -/
def slotOf (t : HashTable D) (i : Nat) : Nat :=
  match t.table[i / 58]? with
  | some g => sgElement g (i % 58)
  | none => 0

/-- The data at index `i`: none at a position that ends the probe loop or holds a tombstone. -/
def dataAt (t : HashTable D) (i : Nat) : Option D :=
  if stopsProbe t i then none else t.entry (i / 58) (t.slotOf i)

end HashTable

open HashTable

/-- Where `hash_find` starts for `key`: `hash (key) & mask`. -/
def probeStart (P : HashPolicy D K) (t : HashTable D) (key : K) : Nat :=
  (P.hash key).toNat &&& (t.size - 1)

/-- Index `i` is probe `j < size` of `key`, and every earlier probe meets an occupied position, so
the probe loop for `key` reaches `i`. -/
def OnChain (P : HashPolicy D K) (t : HashTable D) (key : K) (i : Nat) : Prop :=
  ∃ j < t.size, probeIndex t.size (probeStart P t key) j = i ∧
    ∀ j' < j, stopsProbe t (probeIndex t.size (probeStart P t key) j') = false

/-- The table stands for the map `m` with key set `dom`. -/
structure Refines (P : HashPolicy D K) (t : HashTable D) (m : K → Option D) (dom : Finset K) :
    Prop where
  length_table : t.table.length = (t.size + 57) / 58
  wellFormed : t.GroupsWellFormed
  /-- An occupied index holds data: there is no tombstone. -/
  live : ∀ i < t.size, stopsProbe t i = false → (t.dataAt i).isSome
  /-- Data at an index is the map's data for its key, on that key's probe chain. -/
  stored : ∀ i < t.size, ∀ d, t.dataAt i = some d → m (P.getKey d) = some d ∧ OnChain P t (P.getKey d) i
  /-- A key sits at one index. -/
  unique : ∀ i < t.size, ∀ i' < t.size, ∀ d d', t.dataAt i = some d → t.dataAt i' = some d' →
    P.getKey d = P.getKey d' → i = i'
  /-- The map's data sits at some index. -/
  present : ∀ k d, m k = some d → ∃ i < t.size, t.dataAt i = some d
  key_eq : ∀ k d, m k = some d → P.getKey d = k
  mem_dom : ∀ k, k ∈ dom ↔ (m k).isSome
  items_eq : t.items = dom.card
  /-- The occupied indices are as many as the keys. -/
  occupied_eq : (List.range t.size).countP (fun i => !stopsProbe t i) = dom.card
  /-- The positions of the last group from `size` on are never occupied. -/
  clear_above : ∀ x, t.size ≤ x → x / 58 < t.table.length → stopsProbe t x = true

/-! ## The probe loop of `hash_find` -/

theorem probeStart_lt (P : HashPolicy D K) (t : HashTable D) (key : K) (hsize : 0 < t.size) :
    probeStart P t key < t.size :=
  lt_of_le_of_lt Nat.and_le_right (Nat.sub_lt hsize one_pos)

theorem probeIndex_lt {size start : Nat} (hsize : 0 < size) (hstart : start < size) :
    ∀ j, probeIndex size start j < size
  | 0 => hstart
  | _ + 1 => lt_of_le_of_lt Nat.and_le_right (Nat.sub_lt hsize one_pos)

/-- On a table of size `2 ^ m` the first `size` probes land on distinct indices. -/
theorem probeIndex_injOn {size m index : Nat} (hpow : size = 2 ^ m) (hindex : index < size)
    {a b : Nat} (ha : a < size) (hb : b < size) (h : probeIndex size index a = probeIndex size index b) :
    a = b := by
  subst hpow
  rw [probeIndex_eq hindex, probeIndex_eq hindex] at h
  exact triangle_modEq_inj ha hb (Nat.ModEq.add_left_cancel' index h)

section Find

variable (P : HashPolicy D K) (t : HashTable D) (key : K)

theorem hashFind_eq : hashFind P t key =
    (findLoop P t key (t.size + 1) (probeIndex t.size (probeStart P t key) 0) 0 none).map
      fun r => (r.1, { t with mark := r.2 }) := rfl

/-- At a position that ends it, the probe loop stops and marks the position unless a tombstone was
marked before. -/
theorem findLoop_stop {i : Nat} (hi : i / 58 < t.table.length) (hs : stopsProbe t i = true)
    (fuel probes : Nat) (mark : Option Mark) :
    findLoop P t key (fuel + 1) i probes mark = .ok (none, mark <|> some ⟨t.alloc, i / 58, i % 58⟩) := by
  simp only [stopsProbe, List.getElem?_eq_getElem hi] at hs
  simp only [findLoop, List.getElem?_eq_getElem hi, hs, if_true]

/-- At a position holding data, the probe loop answers it when `compare` finds its key equal and
moves on to the next probe otherwise. -/
theorem findLoop_data {i : Nat} {d : D} (hd : t.dataAt i = some d) (fuel probes : Nat)
    (mark : Option Mark) :
    findLoop P t key (fuel + 1) i probes mark =
      if P.compare key (P.getKey d) = 0 then .ok (some (i / 58, t.slotOf i), mark)
      else findLoop P t key fuel ((i + (probes + 1)) &&& (t.size - 1)) (probes + 1) mark := by
  unfold dataAt at hd
  split at hd
  · cases hd
  rename_i hs
  unfold entry slotOf at hd
  unfold stopsProbe at hs
  cases hg : t.table[i / 58]? with
  | none => rw [hg] at hd; cases hd
  | some g =>
    rw [hg] at hd hs
    simp only [Option.some_bind, Option.join_eq_some] at hd
    simp only at hs
    simp only [findLoop, hg, hs, Bool.false_eq_true, if_false, hd, slotOf]

/-- From probe `j`, `n` probes at positions holding data under other keys are passed over. -/
theorem findLoop_walk (start : Nat) : ∀ (n j fuel : Nat) (mark : Option Mark),
    (∀ j' < n, ∃ d, t.dataAt (probeIndex t.size start (j + j')) = some d ∧
      P.compare key (P.getKey d) ≠ 0) →
    findLoop P t key (fuel + n) (probeIndex t.size start j) j mark =
      findLoop P t key fuel (probeIndex t.size start (j + n)) (j + n) mark
  | 0, _, _, _, _ => rfl
  | n + 1, j, fuel, mark, h => by
    obtain ⟨d, hd, hne⟩ := h 0 (Nat.succ_pos n)
    rw [Nat.add_zero] at hd
    rw [show fuel + (n + 1) = fuel + n + 1 by omega, findLoop_data P t key hd, if_neg hne,
      show (probeIndex t.size start j + (j + 1)) &&& (t.size - 1) = probeIndex t.size start (j + 1)
        from rfl,
      findLoop_walk start n (j + 1) fuel mark fun j' hj' => by
        simpa only [Nat.add_assoc, Nat.add_comm 1 j'] using h (j' + 1) (by omega),
      show j + 1 + n = j + (n + 1) by omega]

end Find

/-! ## `hash_find` on a table that stands for a map -/

section Spec

variable {P : HashPolicy D K} {t : HashTable D} {m : K → Option D} {dom : Finset K}
  (hcmp : ∀ a b, P.compare a b = 0 ↔ a = b) (ht : Refines P t m dom)
include hcmp ht

/-- An occupied probe whose data is not under `key` is passed over by the probe loop for `key`. -/
theorem passes_of_occupied {key : K} {i : Nat} (hi : i < t.size) (hocc : stopsProbe t i = false)
    (hother : ∀ d, t.dataAt i = some d → P.getKey d ≠ key) :
    ∃ d, t.dataAt i = some d ∧ P.compare key (P.getKey d) ≠ 0 := by
  obtain ⟨d, hd⟩ := Option.isSome_iff_exists.mp (ht.live i hi hocc)
  exact ⟨d, hd, fun hc => hother d hd ((hcmp _ _).mp hc).symm⟩

/-- `hash_find` finds a key of the map at the index of its data.  The probe loop reaches that
index through occupied positions, and meets the key nowhere before it, since a key sits at one
index. -/
theorem hashFind_present {key : K} {d : D} (hk : m key = some d) :
    ∃ i < t.size, t.dataAt i = some d ∧
      hashFind P t key = .ok (some (i / 58, t.slotOf i), { t with mark := none }) := by
  classical
  obtain ⟨i, hi, hdi⟩ := ht.present key d hk
  have hkey := ht.key_eq key d hk
  obtain ⟨-, jc, hjc, hjci, hbefore⟩ := ht.stored i hi d hdi
  rw [hkey] at hjci hbefore
  have hlt := probeIndex_lt (show 0 < t.size by omega) (probeStart_lt P t key (by omega))
  -- the first probe whose data is under `key`
  have hex : ∃ j d', t.dataAt (probeIndex t.size (probeStart P t key) j) = some d' ∧
      P.getKey d' = key := ⟨jc, d, hjci ▸ hdi, hkey⟩
  obtain ⟨d', hd', hkd'⟩ := Nat.find_spec hex
  have hJ : Nat.find hex ≤ jc := Nat.find_min' hex ⟨d, hjci ▸ hdi, hkey⟩
  have hJi := ht.unique _ (hlt _) i hi d' d hd' hdi (hkd'.trans hkey.symm)
  refine ⟨i, hi, hdi, ?_⟩
  rw [hashFind_eq, show t.size + 1 = t.size - Nat.find hex + 1 + Nat.find hex by omega,
    findLoop_walk P t key _ (Nat.find hex) 0 _ none fun j' hj' => ?_, Nat.zero_add, hJi,
    findLoop_data P t key hdi, if_pos ((hcmp _ _).mpr hkey.symm)]
  · rfl
  · rw [Nat.zero_add]
    exact passes_of_occupied hcmp ht (hlt j') (hbefore j' (by omega))
      fun d'' hd'' hk'' => Nat.find_min hex hj' ⟨d'', hd'', hk''⟩

/-- `hash_find` of a key outside the map stops at the first empty probe of the key and marks it.
On a table of size `2 ^ n` the first `size` probes are distinct, so while fewer than `size`
indices are occupied one of them is empty. -/
theorem hashFind_absent {n : Nat} (hpow : t.size = 2 ^ n) (hroom : dom.card < t.size) {key : K}
    (hk : m key = none) :
    ∃ i < t.size, stopsProbe t i = true ∧ OnChain P t key i ∧
      hashFind P t key = .ok (none, { t with mark := some ⟨t.alloc, i / 58, i % 58⟩ }) := by
  classical
  have hsize : 0 < t.size := by omega
  have hstart := probeStart_lt P t key hsize
  have hlt := probeIndex_lt hsize hstart
  -- some probe below `size` is empty: otherwise the first `size` probes would be `size` distinct
  -- occupied indices
  obtain ⟨j₀, hj₀, hstop₀⟩ : ∃ j < t.size, stopsProbe t (probeIndex t.size (probeStart P t key) j) := by
    by_contra hall
    push_neg at hall
    have hnodup : ((List.range t.size).map (probeIndex t.size (probeStart P t key))).Nodup :=
      (List.nodup_range _).map_on fun a ha b hb hab =>
        probeIndex_injOn hpow hstart (List.mem_range.mp ha) (List.mem_range.mp hb) hab
    have hsub : (List.range t.size).map (probeIndex t.size (probeStart P t key)) ⊆
        (List.range t.size).filter fun i => !stopsProbe t i := fun x hx => by
      obtain ⟨j, hj, rfl⟩ := List.mem_map.mp hx
      simpa [hlt j] using hall j (List.mem_range.mp hj)
    have hle := (hnodup.subperm hsub).length_le
    rw [List.length_map, List.length_range, ← List.countP_eq_length_filter, ht.occupied_eq] at hle
    omega
  have hex : ∃ j, stopsProbe t (probeIndex t.size (probeStart P t key) j) := ⟨j₀, hstop₀⟩
  have hJ : Nat.find hex ≤ j₀ := Nat.find_min' hex hstop₀
  have hbefore : ∀ j' < Nat.find hex, stopsProbe t (probeIndex t.size (probeStart P t key) j') = false :=
    fun j' hj' => Bool.eq_false_iff.mpr (Nat.find_min hex hj')
  refine ⟨_, hlt _, Nat.find_spec hex, ⟨Nat.find hex, by omega, rfl, hbefore⟩, ?_⟩
  rw [hashFind_eq, show t.size + 1 = t.size - Nat.find hex + 1 + Nat.find hex by omega,
    findLoop_walk P t key _ (Nat.find hex) 0 _ none fun j' hj' => ?_, Nat.zero_add,
    findLoop_stop P t key (by rw [ht.length_table]; have := hlt (Nat.find hex); omega) (Nat.find_spec hex)]
  · rfl
  · rw [Nat.zero_add]
    exact passes_of_occupied hcmp ht (hlt j') (hbefore j' hj')
      fun d hd hkd => by simp [← hkd, (ht.stored _ (hlt j') d hd).1] at hk

end Spec

/-! ## Changing one index -/

/-- An index on the probe chain of `key` stays on it while no occupied position becomes empty. -/
theorem OnChain.mono {P : HashPolicy D K} {t t' : HashTable D} {key : K} {i : Nat}
    (h : OnChain P t key i) (hsize : t'.size = t.size)
    (hstop : ∀ x < t.size, stopsProbe t x = false → stopsProbe t' x = false) : OnChain P t' key i := by
  obtain ⟨j, hj, hji, hb⟩ := h
  have hstart : probeStart P t' key = probeStart P t key := by unfold probeStart; rw [hsize]
  have hlt := probeIndex_lt (show 0 < t.size by omega) (probeStart_lt P t key (by omega))
  exact ⟨j, hsize ▸ hj, by rw [hstart, hsize, hji], fun j' hj' => by
    rw [hstart, hsize]; exact hstop _ (hlt j') (hb j' hj')⟩

/-- A table that differs from one standing for `m` only at index `i`, which now holds `data` and
held nothing or data under the same key, stands for `m` with `data` put under its key.  `hash_put`
changes a table this way, whether it stores through an entry or inserts at an empty position. -/
theorem Refines.update {P : HashPolicy D K} [DecidableEq K] {t t' : HashTable D} {m : K → Option D}
    {dom : Finset K} (ht : Refines P t m dom) (hsize : t'.size = t.size)
    (hlen : t'.table.length = t.table.length) (hwf : t'.GroupsWellFormed) {i : Nat} (hi : i < t.size)
    {data : D} (hstop : ∀ x, stopsProbe t' x = (stopsProbe t x && decide (x ≠ i)))
    (hdata : ∀ x < t.size, t'.dataAt x = if x = i then some data else t.dataAt x)
    (hold : ∀ d, t.dataAt i = some d → P.getKey d = P.getKey data)
    (hfree : ∀ x < t.size, ∀ d, t.dataAt x = some d → P.getKey d = P.getKey data → x = i)
    (hchain : OnChain P t (P.getKey data) i)
    (hitems : t'.items = (insert (P.getKey data) dom).card)
    (hcount : (List.range t'.size).countP (fun x => !stopsProbe t' x) =
      (insert (P.getKey data) dom).card) :
    Refines P t' (Function.update m (P.getKey data) (some data)) (insert (P.getKey data) dom) := by
  have hkeep : ∀ x < t.size, stopsProbe t x = false → stopsProbe t' x = false := fun x _ h => by
    rw [hstop x, h, Bool.false_and]
  refine ⟨by rw [hlen, ht.length_table, hsize], hwf, fun x hx hs => ?_, fun x hx d hd => ?_,
    fun x hx x' hx' d d' hd hd' hk => ?_, fun k d hk => ?_, fun k d hk => ?_, fun k => ?_, hitems,
    hcount, fun x hx hx' => ?_⟩
  · -- live
    rw [hsize] at hx
    rw [hdata x hx]
    split_ifs with hxi
    · rfl
    · rw [hstop x] at hs
      exact ht.live x hx (by simpa [hxi] using hs)
  · -- stored
    rw [hsize] at hx
    rw [hdata x hx] at hd
    split_ifs at hd with hxi
    · cases hd
      exact ⟨Function.update_same _ _ _, hxi ▸ hchain.mono hsize hkeep⟩
    · obtain ⟨hm, hc⟩ := ht.stored x hx d hd
      have hne : P.getKey d ≠ P.getKey data := fun h => hxi (hfree x hx d hd h)
      exact ⟨by rw [Function.update_noteq hne, hm], hc.mono hsize hkeep⟩
  · -- unique
    rw [hsize] at hx hx'
    rw [hdata x hx] at hd
    rw [hdata x' hx'] at hd'
    split_ifs at hd hd' with h₁ h₂ h₂
    · rw [h₁, h₂]
    · cases hd; exact absurd (hfree x' hx' d' hd' hk.symm) h₂
    · cases hd'; exact absurd (hfree x hx d hd hk) h₁
    · exact ht.unique x hx x' hx' d d' hd hd' hk
  · -- present
    by_cases hkd : k = P.getKey data
    · subst hkd
      rw [Function.update_same] at hk
      cases hk
      exact ⟨i, hsize ▸ hi, by rw [hdata i hi, if_pos rfl]⟩
    · rw [Function.update_noteq hkd] at hk
      obtain ⟨x, hx, hdx⟩ := ht.present k d hk
      have hxi : x ≠ i := fun h => hkd (by rw [← ht.key_eq k d hk]; exact hold d (h ▸ hdx))
      exact ⟨x, hsize ▸ hx, by rw [hdata x hx, if_neg hxi, hdx]⟩
  · -- key_eq
    by_cases hkd : k = P.getKey data
    · subst hkd
      rw [Function.update_same] at hk
      cases hk
      rfl
    · rw [Function.update_noteq hkd] at hk
      exact ht.key_eq k d hk
  · -- mem_dom
    rw [Finset.mem_insert, ht.mem_dom]
    by_cases hkd : k = P.getKey data
    · subst hkd
      simp only [true_or, Function.update_same, Option.isSome_some]
    · simp [hkd, Function.update_noteq hkd]
  · -- clear_above
    rw [hsize] at hx
    rw [hstop x, ht.clear_above x hx (hlen ▸ hx'), decide_eq_true (show x ≠ i by omega), Bool.and_true]

/-! ## One index seen through its group -/

section View

variable {t t' : HashTable D} {x : Nat}

theorem stopsProbe_congr (h : t'.table[x / 58]? = t.table[x / 58]?) :
    stopsProbe t' x = stopsProbe t x := by
  simp only [stopsProbe, h]

theorem dataAt_congr (h : t'.table[x / 58]? = t.table[x / 58]?) : t'.dataAt x = t.dataAt x := by
  simp only [dataAt, stopsProbe, entry, slotOf, h]

variable {g : SparseGroup D} (hg : t.table[x / 58]? = some g) (hwf : g.WellFormed)
include hg hwf

/-- In a well-formed group an index ends the probe loop exactly when its bit is clear. -/
theorem stopsProbe_eq_testBit : stopsProbe t x = !g.bits.toNat.testBit (x % 58) := by
  simp only [stopsProbe, hg]
  exact hwf.stops_eq (Nat.mod_lt _ (by omega))

/-- In a well-formed group an index with its bit set holds the entry at its rank. -/
theorem dataAt_eq_testBit : t.dataAt x =
    if g.bits.toNat.testBit (x % 58) then (g.slot[sgElement g (x % 58)]?).join else none := by
  rw [dataAt, stopsProbe_eq_testBit hg hwf]
  cases g.bits.toNat.testBit (x % 58) <;> simp [entry, slotOf, hg]

end View

/-- In a table of well-formed groups the group of an index inside the table is well formed. -/
theorem exists_group {t : HashTable D} (hwf : t.GroupsWellFormed) {x : Nat}
    (hx : x / 58 < t.table.length) : ∃ g, t.table[x / 58]? = some g ∧ g.WellFormed :=
  ⟨_, List.getElem?_eq_getElem hx, hwf _ (List.getElem_mem hx)⟩

/-- Two occupied positions of a group read different slots. -/
theorem sgElement_ne {g : SparseGroup D} {q p : Nat} (hq : q < 58) (hp : p < 58) (hqp : q ≠ p)
    (hsq : g.bits.toNat.testBit q = true) (hsp : g.bits.toNat.testBit p = true) :
    sgElement g q ≠ sgElement g p := by
  rcases Nat.lt_or_gt_of_ne hqp with h | h
  · exact (SparseGroup.bitRank_lt_of_testBit g h (by omega) hsq).ne
  · exact (SparseGroup.bitRank_lt_of_testBit g h (by omega) hsp).ne'

/-- An index that holds data lies in a group of the table. -/
theorem lt_length_of_dataAt {t : HashTable D} {i : Nat} {d : D} (hd : t.dataAt i = some d) :
    i / 58 < t.table.length := by
  by_contra h
  simp [dataAt, entry, List.getElem?_eq_none (Nat.le_of_not_lt h)] at hd

/-! ## A store through an entry -/

section Store

variable {t : HashTable D} (hwf : t.GroupsWellFormed) {i : Nat} {d : D} (hd : t.dataAt i = some d)
  (data : D)
include hwf hd

/-- The group of index `i` after the store, with the group before it. -/
theorem group_setEntry : ∃ g, t.table[i / 58]? = some g ∧ g.WellFormed ∧
    g.bits.toNat.testBit (i % 58) = true ∧ (g.slot[sgElement g (i % 58)]?).join = some d ∧
    (t.setEntry (i / 58) (t.slotOf i) (some data)).table[i / 58]? =
      some ⟨g.slot.set (sgElement g (i % 58)) (some data), g.bits⟩ := by
  obtain ⟨g, hg, hgw⟩ := exists_group hwf (lt_length_of_dataAt hd)
  rw [dataAt_eq_testBit hg hgw] at hd
  split_ifs at hd with hbi
  refine ⟨g, hg, hgw, hbi, hd, ?_⟩
  simp only [setEntry, List.getElem?_modify_eq, hg, slotOf]
  rfl

theorem stopsProbe_setEntry (x : Nat) :
    stopsProbe (t.setEntry (i / 58) (t.slotOf i) (some data)) x = stopsProbe t x := by
  by_cases hx : i / 58 = x / 58
  · obtain ⟨g, hg, hgw, -, -, hg'⟩ := group_setEntry hwf hd data
    rw [hx] at hg
    rw [stopsProbe_eq_testBit (by rw [← hx]; exact hg') (hgw.set (sgElement g (i % 58)) (some data)),
      stopsProbe_eq_testBit hg hgw]
  · exact stopsProbe_congr (List.getElem?_modify_ne _ _ hx)

/-- A store through the entry of index `i` changes the data at `i` and nowhere else. -/
theorem dataAt_setEntry (x : Nat) :
    (t.setEntry (i / 58) (t.slotOf i) (some data)).dataAt x = if x = i then some data else t.dataAt x := by
  by_cases hx : i / 58 = x / 58
  · obtain ⟨g, hg, hgw, hbi, hdi, hg'⟩ := group_setEntry hwf hd data
    have hlt : sgElement g (i % 58) < g.slot.length :=
      (List.getElem?_eq_some_iff.mp (Option.join_eq_some.mp hdi)).1
    rw [hx] at hg
    rw [dataAt_eq_testBit (by rw [← hx]; exact hg') (hgw.set (sgElement g (i % 58)) (some data)),
      dataAt_eq_testBit hg hgw]
    by_cases hxi : x = i
    · subst hxi
      rw [if_pos hbi, if_pos rfl]
      exact congrArg Option.join (List.getElem?_set_self hlt)
    · rw [if_neg hxi]
      split_ifs with hbx
      · have hne : sgElement (⟨g.slot.set (sgElement g (i % 58)) (some data), g.bits⟩ : SparseGroup D)
            (x % 58) ≠ sgElement g (i % 58) :=
          sgElement_ne (Nat.mod_lt _ (by omega)) (Nat.mod_lt _ (by omega)) (by omega) hbx hbi
        rw [List.getElem?_set_ne hne.symm]
        rfl
      · rfl
  · rw [dataAt_congr (List.getElem?_modify_ne _ _ hx), if_neg (fun h => hx (by rw [h]))]

end Store

/-! ## An insertion at an empty index -/

/-- Making index `i`, where `p` is false, satisfy the predicate counts one more index below
`n > i`. -/
theorem countP_range_set {p p' : Nat → Bool} {i : Nat} (hpi : p i = false) :
    ∀ {n : Nat}, i < n → (∀ x < n, p' x = (p x || decide (x = i))) →
      (List.range n).countP p' = (List.range n).countP p + 1
  | 0, hn, _ => absurd hn (Nat.not_lt_zero i)
  | n + 1, hn, h => by
    rw [List.range_succ, List.countP_append, List.countP_append]
    simp only [List.countP_cons, List.countP_nil, h n (Nat.lt_succ_self n)]
    rcases Nat.lt_or_eq_of_le (Nat.le_of_lt_succ hn) with hin | rfl
    · rw [countP_range_set hpi hin fun x hx => h x (by omega), decide_eq_false (by omega : n ≠ i),
        Bool.or_false]
      omega
    · rw [List.countP_congr fun x hx => by
        rw [h x (by have := List.mem_range.mp hx; omega),
          decide_eq_false (List.mem_range.mp hx).ne, Bool.or_false], hpi]
      simp

section InsertAt

variable {t : HashTable D} (hwf : t.GroupsWellFormed) {i : Nat} {g : SparseGroup D}
  (hg : t.table[i / 58]? = some g) (hs : stopsProbe t i = true) (data : D)
include hwf hg hs

/-- The bit of an index that ends the probe loop is clear. -/
theorem testBit_of_stopsProbe : g.bits.toNat.testBit (i % 58) = false := by
  have hgw := hwf g (List.getElem?_mem hg)
  rw [stopsProbe_eq_testBit hg hgw] at hs
  simpa using hs

omit hwf hs in
/-- The group of index `i` after `sg_insert` at its position, in the table. -/
theorem getElem?_set_sgInsert {x : Nat} (hx : i / 58 = x / 58) :
    (t.table.set (i / 58) (sgInsert g (i % 58) data))[x / 58]? = some (sgInsert g (i % 58) data) := by
  rw [← hx]
  exact List.getElem?_set_self (List.getElem?_eq_some_iff.mp hg).1

/-- Inserting at the empty index `i` fills `i` and keeps every other index. -/
theorem stopsProbe_insertAt (x : Nat) :
    stopsProbe { t with table := t.table.set (i / 58) (sgInsert g (i % 58) data) } x =
      (stopsProbe t x && decide (x ≠ i)) := by
  have hgw := hwf g (List.getElem?_mem hg)
  have hclear := testBit_of_stopsProbe hwf hg hs
  have hp : i % 58 < 58 := Nat.mod_lt _ (by omega)
  by_cases hx : i / 58 = x / 58
  · have hxq : x % 58 < 58 := Nat.mod_lt _ (by omega)
    rw [stopsProbe_eq_testBit (getElem?_set_sgInsert hg data hx)
        (SparseGroup.wellFormed_sgInsert hgw hp hclear data),
      stopsProbe_eq_testBit (hx ▸ hg) hgw, sgInsert_testBit g hp data hxq,
      show decide (x % 58 = i % 58) = decide (x = i) from decide_eq_decide.mpr (by omega)]
    by_cases hxi : x = i <;> simp [hxi]
  · rw [stopsProbe_congr (List.getElem?_set_ne hx), decide_eq_true (show x ≠ i from fun h => hx (by rw [h])),
      Bool.and_true]

/-- Inserting at the empty index `i` puts `data` there and keeps the data everywhere else. -/
theorem dataAt_insertAt (x : Nat) :
    (({ t with table := t.table.set (i / 58) (sgInsert g (i % 58) data) } : HashTable D)).dataAt x =
      if x = i then some data else t.dataAt x := by
  have hgw := hwf g (List.getElem?_mem hg)
  have hclear := testBit_of_stopsProbe hwf hg hs
  have hp : i % 58 < 58 := Nat.mod_lt _ (by omega)
  by_cases hx : i / 58 = x / 58
  · have hxq : x % 58 < 58 := Nat.mod_lt _ (by omega)
    rw [dataAt_eq_testBit (getElem?_set_sgInsert hg data hx)
        (SparseGroup.wellFormed_sgInsert hgw hp hclear data),
      dataAt_eq_testBit (hx ▸ hg) hgw, sgInsert_testBit g hp data hxq]
    by_cases hxi : x = i
    · subst hxi
      rw [SparseGroup.sgInsert_getElem?_self hgw hp hclear data]
      simp
    · have hqp : x % 58 ≠ i % 58 := fun h => hxi (by omega)
      rw [decide_eq_false hqp, Bool.or_false, if_neg hxi]
      split_ifs with hset
      · rw [SparseGroup.sgInsert_getElem?_of_ne hgw hp hclear hxq hqp hset data]
      · rfl
  · rw [dataAt_congr (List.getElem?_set_ne hx), if_neg fun h => hx (by rw [h])]

/-- Inserting at the empty index `i` keeps every group well formed. -/
theorem groupsWellFormed_insertAt :
    ({ t with table := t.table.set (i / 58) (sgInsert g (i % 58) data) } : HashTable D).GroupsWellFormed :=
  fun g' hg' => (List.mem_or_eq_of_mem_set hg').elim (hwf g') fun h => h ▸
    SparseGroup.wellFormed_sgInsert (hwf g (List.getElem?_mem hg)) (Nat.mod_lt _ (by omega))
      (testBit_of_stopsProbe hwf hg hs) data

end InsertAt

/-! ## `hash_put` and `hash_get` on a table that stands for a map -/

/-- The mark plays no part in what a table stands for. -/
theorem Refines.withMark {P : HashPolicy D K} {t : HashTable D} {m : K → Option D} {dom : Finset K}
    (ht : Refines P t m dom) (mk : Option Mark) : Refines P { t with mark := mk } m dom :=
  ⟨ht.length_table, ht.wellFormed, ht.live, ht.stored, ht.unique, ht.present, ht.key_eq, ht.mem_dom,
    ht.items_eq, ht.occupied_eq, ht.clear_above⟩

/-- An index that holds data is read through its entry. -/
theorem entry_of_dataAt {t : HashTable D} {i : Nat} {d : D} (hd : t.dataAt i = some d) :
    t.entry (i / 58) (t.slotOf i) = some d := by
  unfold dataAt at hd
  split at hd
  · cases hd
  · exact hd

theorem stopsProbe_of_dataAt {t : HashTable D} {i : Nat} {d : D} (hd : t.dataAt i = some d) :
    stopsProbe t i = false := by
  unfold dataAt at hd
  split at hd
  · cases hd
  · exact Bool.eq_false_iff.mpr ‹_›

theorem Refines.not_mem {P : HashPolicy D K} {t : HashTable D} {m : K → Option D} {dom : Finset K}
    (ht : Refines P t m dom) {k : K} (hk : m k = none) : k ∉ dom := fun h => by
  have := (ht.mem_dom k).mp h
  rw [hk] at this
  cases this

section Put

variable {P : HashPolicy D K} {t : HashTable D} {m : K → Option D} {dom : Finset K}
  (hcmp : ∀ a b, P.compare a b = 0 ↔ a = b) (ht : Refines P t m dom)
include hcmp ht

/-- `hash_put` of a key of the map stores through the entry `hash_find` finds. -/
theorem hashPut_present {data d : D} (hk : m (P.getKey data) = some d) :
    ∃ i < t.size, t.dataAt i = some d ∧
      hashPut P t data = .ok (({ t with mark := none } : HashTable D).setEntry (i / 58) (t.slotOf i) (some data)) := by
  obtain ⟨i, hi, hd, hf⟩ := hashFind_present hcmp ht hk
  exact ⟨i, hi, hd, by rw [hashPut, hashPutN, hf]; rfl⟩

/-- `hash_put` of a key outside the map, while `items` is below `max`, inserts at the first empty
probe of the key. -/
theorem hashPut_absent {n : Nat} (hpow : t.size = 2 ^ n) (hroom : dom.card < t.max)
    (hmax : t.max < t.size) {data : D} (hk : m (P.getKey data) = none) :
    ∃ i < t.size, stopsProbe t i = true ∧ OnChain P t (P.getKey data) i ∧ ∃ g, t.table[i / 58]? = some g ∧
      hashPut P t data = .ok { t with
        table := t.table.set (i / 58) (sgInsert g (i % 58) data), items := t.items + 1,
        mark := some ⟨t.alloc, i / 58, i % 58⟩ } := by
  obtain ⟨i, hi, hs, hc, hf⟩ := hashFind_absent hcmp ht hpow (by omega) hk
  obtain ⟨g, hg, -⟩ := exists_group ht.wellFormed (show i / 58 < t.table.length by
    rw [ht.length_table]; omega)
  have hne : t.items ≠ t.max := by rw [ht.items_eq]; exact_mod_cast hroom.ne
  refine ⟨i, hi, hs, hc, g, hg, ?_⟩
  rw [hashPut, hashPutN, hf]
  simp only [bind, Except.bind, pure, Except.pure, hne, if_false, hashInsert, if_true, hg]

/-- `hash_get` answers the map and leaves a table that stands for it. -/
theorem hashGet_eq {n : Nat} (hpow : t.size = 2 ^ n) (hroom : dom.card < t.size) (key : K) :
    ∃ mk, hashGet P t key = .ok (m key, { t with mark := mk }) := by
  cases hk : m key with
  | some d =>
    obtain ⟨i, -, hd, hf⟩ := hashFind_present hcmp ht hk
    exact ⟨none, by rw [hashGet, hf]; exact congrArg (fun r => Except.ok (r, _)) (entry_of_dataAt hd)⟩
  | none =>
    obtain ⟨i, -, -, -, hf⟩ := hashFind_absent hcmp ht hpow hroom hk
    exact ⟨_, by rw [hashGet, hf]; rfl⟩

variable [DecidableEq K]

omit hcmp in
/-- The store of `hash_put` into the entry of a key of the map puts the data under that key. -/
theorem Refines.store {data d : D} (hk : m (P.getKey data) = some d) {i : Nat} (hi : i < t.size)
    (hd : t.dataAt i = some d) :
    Refines P (t.setEntry (i / 58) (t.slotOf i) (some data))
      (Function.update m (P.getKey data) (some data)) (insert (P.getKey data) dom) := by
  have hkey := ht.key_eq _ _ hk
  have hmem : insert (P.getKey data) dom = dom :=
    Finset.insert_eq_of_mem ((ht.mem_dom _).mpr (by rw [hk]; rfl))
  have hstop := stopsProbe_setEntry ht.wellFormed hd data
  refine ht.update (by rfl) (List.length_modify _ _ _) (ht.wellFormed.setEntry _ _ _) hi
    (fun x => ?_) (fun x _ => dataAt_setEntry ht.wellFormed hd data x)
    (fun d' hd' => by rw [Option.some.inj (hd'.symm.trans hd), hkey])
    (fun x hx d' hd' hk' => ht.unique x hx i hi d' d hd' hd (hk'.trans hkey.symm))
    (hkey ▸ (ht.stored i hi d hd).2) (by rw [hmem]; exact ht.items_eq) ?_
  · rw [hstop]
    by_cases hxi : x = i
    · rw [hxi, stopsProbe_of_dataAt hd, Bool.false_and]
    · rw [decide_eq_true (show x ≠ i from hxi), Bool.and_true]
  · rw [hmem, funext hstop]
    exact ht.occupied_eq

omit hcmp in
/-- The insertion of `hash_put` at an empty index on the probe chain of a key outside the map puts
the data under that key, and one more in `items`. -/
theorem Refines.insertAt {data : D} (hk : m (P.getKey data) = none) {i : Nat} (hi : i < t.size)
    (hs : stopsProbe t i = true) (hc : OnChain P t (P.getKey data) i) {g : SparseGroup D}
    (hg : t.table[i / 58]? = some g) (mk : Option Mark) :
    Refines P { t with
        table := t.table.set (i / 58) (sgInsert g (i % 58) data), items := t.items + 1, mark := mk }
      (Function.update m (P.getKey data) (some data)) (insert (P.getKey data) dom) := by
  have hcard : (insert (P.getKey data) dom).card = dom.card + 1 :=
    Finset.card_insert_of_not_mem (ht.not_mem hk)
  refine ht.update (by rfl) (List.length_set _ _ _) ?_ hi ?_ ?_
    (fun d hd => by rw [dataAt, if_pos hs] at hd; cases hd)
    (fun x hx d hd hkd => by have := (ht.stored x hx d hd).1; rw [hkd, hk] at this; cases this) hc ?_ ?_
  · exact groupsWellFormed_insertAt ht.wellFormed hg hs data
  · exact fun x => stopsProbe_insertAt ht.wellFormed hg hs data x
  · exact fun x _ => dataAt_insertAt ht.wellFormed hg hs data x
  · show t.items + 1 = _
    rw [hcard, ht.items_eq, Nat.cast_succ]
  · rw [hcard, ← ht.occupied_eq]
    exact countP_range_set (by simp [hs]) hi fun x _ =>
      (congrArg Bool.not (stopsProbe_insertAt ht.wellFormed hg hs data x)).trans (by
        by_cases hxi : x = i <;> simp [hxi])

/-- `hash_put` on a table of size `2 ^ n` that stands for `m`, while the keys fit in `max`, leaves a
table of the same size and bounds that stands for `m` with the data put under its key. -/
theorem hashPut_refines {n : Nat} (hpow : t.size = 2 ^ n) (hmax : t.max < t.size) {data : D}
    (hfit : (insert (P.getKey data) dom).card ≤ t.max) :
    ∃ t', hashPut P t data = .ok t' ∧
      Refines P t' (Function.update m (P.getKey data) (some data)) (insert (P.getKey data) dom) ∧
      t'.size = t.size ∧ t'.max = t.max := by
  cases hk : m (P.getKey data) with
  | some d =>
    obtain ⟨i, hi, hd, hp⟩ := hashPut_present hcmp ht hk
    exact ⟨_, hp, (ht.withMark none).store hk hi hd, rfl, rfl⟩
  | none =>
    rw [Finset.card_insert_of_not_mem (ht.not_mem hk)] at hfit
    obtain ⟨i, hi, hs, hc, g, hg, hp⟩ := hashPut_absent hcmp ht hpow (by omega) hmax hk
    exact ⟨_, hp, ht.insertAt hk hi hs hc hg _, rfl, rfl⟩

end Put

/-! ## Histories without deletes -/

/-- The keys a history puts. -/
def putKeys (getKey : D → K) : List (Op D K) → List K
  | [] => []
  | .put data :: ops => getKey data :: putKeys getKey ops
  | _ :: ops => putKeys getKey ops

/-- The finite map a history leaves. -/
def mapState [DecidableEq K] (getKey : D → K) (m : K → Option D) : List (Op D K) → K → Option D
  | [] => m
  | op :: ops => mapState getKey (mapStep getKey m op).2 ops

/-- A new table stands for the empty map: every index ends the probe loop. -/
theorem stopsProbe_hashNew {size x : Nat} (hx : x / 58 < (size + 57) / 58) :
    stopsProbe (hashNew size : HashTable D) x = true := by
  simp only [stopsProbe, hashNew, hashInit, List.getElem?_replicate, if_pos hx]
  rfl

theorem dataAt_hashNew (size x : Nat) : (hashNew size : HashTable D).dataAt x = none := by
  unfold dataAt entry
  split
  · rfl
  · simp only [hashNew, hashInit, List.getElem?_replicate]
    split <;> rfl

theorem refines_hashNew (P : HashPolicy D K) (size : Nat) :
    Refines P (hashNew size) (fun _ => none) ∅ where
  length_table := List.length_replicate _ _
  wellFormed := groupsWellFormed_hashInit _ _
  live x hx hs := absurd (@stopsProbe_hashNew D size x (by have : x < size := hx; omega)) (by rw [hs]; decide)
  stored x _ d hd := absurd (hd.symm.trans (dataAt_hashNew _ x)) (Option.some_ne_none d)
  unique x _ _ _ d _ hd := absurd (hd.symm.trans (dataAt_hashNew _ x)) (Option.some_ne_none d)
  present _ _ h := absurd h (Option.noConfusion)
  key_eq _ _ h := absurd h (Option.noConfusion)
  mem_dom _ := by simp
  items_eq := rfl
  occupied_eq := List.countP_eq_zero.mpr fun x hx => by
    simp [@stopsProbe_hashNew D size x (by have : x < size := List.mem_range.mp hx; omega)]
  clear_above _ _ hx := stopsProbe_hashNew (by simpa [hashNew, hashInit] using hx)

/-- A history of puts and gets, on a table of size `2 ^ n` that stands for `m`, whose keys together
with those of `m` fit in `max`, runs without fault, answers as the map and leaves a table of the
same size that stands for the map the history leaves. -/
theorem run_refines (P : HashPolicy D K) [DecidableEq K] (hcmp : ∀ a b, P.compare a b = 0 ↔ a = b)
    {n : Nat} (ops : List (Op D K)) :
    ∀ {t : HashTable D} {m : K → Option D} {dom : Finset K}, Refines P t m dom → t.size = 2 ^ n →
      t.max < t.size → (∀ k, Op.delete k ∉ ops) → (dom ∪ (putKeys P.getKey ops).toFinset).card ≤ t.max →
      ∃ t' dom', run P t ops = .ok (mapRun P.getKey m ops, t') ∧
        Refines P t' (mapState P.getKey m ops) dom' ∧ t'.size = t.size := by
  induction ops with
  | nil => exact fun ht _ _ _ _ => ⟨_, _, rfl, ht, rfl⟩
  | cons op ops ih =>
    intro t m dom ht hpow hmax hops hfit
    have hops' : ∀ k, Op.delete k ∉ ops := fun k h => hops k (List.mem_cons_of_mem _ h)
    cases op with
    | put data =>
      rw [putKeys, List.toFinset_cons, Finset.union_insert, ← Finset.insert_union] at hfit
      obtain ⟨t₁, hp, ht₁, hsize, hmax₁⟩ := hashPut_refines hcmp ht hpow hmax
        ((Finset.card_le_card Finset.subset_union_left).trans hfit)
      obtain ⟨t₂, dom₂, hr, ht₂, hsize₂⟩ := ih ht₁ (hsize.trans hpow) (by rw [hsize, hmax₁]; exact hmax)
        hops' (hmax₁ ▸ hfit)
      exact ⟨t₂, dom₂, by simp only [run, step, hp, Functor.map, Except.map, bind, Except.bind, hr]; rfl,
        ht₂, hsize₂.trans hsize⟩
    | delete key => exact absurd (List.mem_cons_self _ _) (hops key)
    | get key =>
      obtain ⟨mk, hg⟩ := hashGet_eq hcmp ht hpow
        (lt_of_le_of_lt ((Finset.card_le_card Finset.subset_union_left).trans hfit) hmax) key
      obtain ⟨t₂, dom₂, hr, ht₂, hsize₂⟩ := ih (ht.withMark mk) hpow hmax hops' hfit
      exact ⟨t₂, dom₂, by simp only [run, step, hg, bind, Except.bind, hr]; rfl, ht₂, hsize₂⟩

/-- From `hash_new (2 ^ n)`, a history of puts and gets within `max` leaves a table of size `2 ^ n`
that stands for the map the history leaves. -/
theorem run_hashNew_refines (P : HashPolicy D K) [DecidableEq K]
    (hcmp : ∀ a b, P.compare a b = 0 ↔ a = b) (n : Nat) (ops : List (Op D K))
    (hops : ∀ k, Op.delete k ∉ ops) (hfit : (putKeys P.getKey ops).toFinset.card ≤ 2 ^ n * 80 / 100) :
    ∃ t dom, run P (hashNew (2 ^ n)) ops = .ok (mapRun P.getKey (fun _ => none) ops, t) ∧
      Refines P t (mapState P.getKey (fun _ => none) ops) dom ∧ t.size = 2 ^ n :=
  run_refines P hcmp ops (refines_hashNew P _) rfl
    (show 2 ^ n * 80 / 100 < 2 ^ n by have := Nat.two_pow_pos n; omega) hops
    (by rw [Finset.empty_union]; exact hfit)

/-- On a new table of size `2 ^ n`, a history of `hash_put` and `hash_get` calls that puts at most
`max` distinct keys runs without fault, and every call answers what the finite map answers. -/
theorem run_hashNew_eq_mapRun (P : HashPolicy D K) [DecidableEq K]
    (hcmp : ∀ a b, P.compare a b = 0 ↔ a = b) (n : Nat) (ops : List (Op D K))
    (hops : ∀ k, Op.delete k ∉ ops) (hfit : (putKeys P.getKey ops).toFinset.card ≤ 2 ^ n * 80 / 100) :
    ∃ t, run P (hashNew (2 ^ n)) ops = .ok (mapRun P.getKey (fun _ => none) ops, t) := by
  obtain ⟨t, -, h, -⟩ := run_hashNew_refines P hcmp n ops hops hfit
  exact ⟨t, h⟩

/-- Two keys of the 64-bit policy put on a size-8 table, one put again, and gets of a key held and a
key never put. -/
theorem run_hashNew_eq_mapRun_keys :
    (∀ a b, keyPolicy.compare a b = 0 ↔ a = b) ∧
      (∀ k, Op.delete k ∉ ([.put 1, .put 9, .get 1, .put 1, .get 2, .get 9] : List (Op UInt64 UInt64))) ∧
      (putKeys keyPolicy.getKey ([.put 1, .put 9, .get 1, .put 1, .get 2, .get 9] : List (Op UInt64 UInt64))).toFinset.card ≤
        2 ^ 3 * 80 / 100 ∧
      ∃ t, run keyPolicy (hashNew (2 ^ 3)) [.put 1, .put 9, .get 1, .put 1, .get 2, .get 9] =
        .ok (mapRun keyPolicy.getKey (fun _ => none) [.put 1, .put 9, .get 1, .put 1, .get 2, .get 9], t) :=
  ⟨fun _ _ => int64Compare_eq_zero, by simp, by decide,
    run_hashNew_eq_mapRun keyPolicy (fun _ _ => int64Compare_eq_zero) 3 _ (by simp) (by decide)⟩

end Sep2Client
