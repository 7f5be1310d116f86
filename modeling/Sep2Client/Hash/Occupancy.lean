import Sep2Client.Hash.Popcount
import Sep2Client.Hash.History

/-!
# Occupancy of the groups

A group is meant to keep three things in step: the count in bits `58..63` of its word, the number
of occupied positions of its bitmap, and the length of its slot array (`SparseGroup.WellFormed`).
Then the rank of every occupied position is a slot (`WellFormed.bitRank_lt`).  `hash_init` makes
only well-formed groups, and the stores of `hash_put` and `hash_delete` through an entry keep them
so.  `sg_insert` keeps a group well formed exactly when the bit of its position is clear
(`sgInsert_wellFormed_iff`): at a set bit it adds a slot and one to the count but no bit.

`hash_put` inserts at the mark of `hash_find`, and that mark can be an occupied position: the
tombstone of a deleted key, or, after a growth, the position where `hash_resize` re-inserted its
last element (`put_breaks_group_count`).
-/

namespace Sep2Client

/-! ## Counting the bits of a changed word -/

theorem bitsBelow_mono (n : Nat) {i j : Nat} (h : i ≤ j) : bitsBelow n i ≤ bitsBelow n j := by
  induction j with
  | zero => rw [Nat.le_zero.mp h]
  | succ j ih =>
    rcases Nat.lt_or_eq_of_le h with h | rfl
    · rw [bitsBelow_succ]; exact le_add_right (ih (by omega))
    · exact le_rfl

/-- Setting bit `i` adds one to the count of the bits below `k > i`, unless it was set. -/
theorem bitsBelow_set_bit {n n' i : Nat} : ∀ {k : Nat}, i < k →
    (∀ j < k, n'.testBit j = (n.testBit j || decide (j = i))) →
    bitsBelow n' k = bitsBelow n k + if n.testBit i then 0 else 1
  | 0, hk, _ => absurd hk (Nat.not_lt_zero i)
  | k + 1, hk, h => by
    rw [bitsBelow_succ, bitsBelow_succ, h k (by omega)]
    rcases Nat.lt_or_eq_of_le (Nat.le_of_lt_succ hk) with hik | rfl
    · rw [bitsBelow_set_bit hik fun j hj => h j (by omega), decide_eq_false (by omega : k ≠ i),
        Bool.or_false]
      omega
    · rw [@bitsBelow_congr n' n i fun j hj => by rw [h j (by omega), decide_eq_false (by omega : j ≠ i),
        Bool.or_false]]
      cases n.testBit i <;> simp

variable {D : Type}

/-! ## Well-formed groups -/

namespace SparseGroup

/-- A well-formed group: the count in bits `58..63` is the number of occupied positions of the
bitmap, and the slot array holds one entry for each of them. -/
def WellFormed (g : SparseGroup D) : Prop :=
  g.count = bitsBelow g.bits.toNat 58 ∧ g.slot.length = g.count

instance (g : SparseGroup D) : Decidable g.WellFormed := inferInstanceAs (Decidable (_ ∧ _))

theorem wellFormed_empty : (empty : SparseGroup D).WellFormed := by
  have h0 : (empty : SparseGroup D).count = 0 := by show ((0 : UInt64) >>> 58).toNat = 0; decide
  exact ⟨h0.trans (bitsBelow_zero_left 58).symm, h0.symm⟩

/-- In a well-formed group the rank of every occupied position is a slot. -/
theorem WellFormed.bitRank_lt {g : SparseGroup D} (hg : g.WellFormed) {i : Nat} (hi : i < 58)
    (hset : g.bits.toNat.testBit i = true) : bitRank g.bits i < g.slot.length := by
  have hle := bitsBelow_mono g.bits.toNat (show i + 1 ≤ 58 from hi)
  rw [bitsBelow_succ, hset] at hle
  rw [bitRank_eq_bitsBelow g.bits (by omega), hg.2, hg.1]
  simp only [Bool.toNat_true] at hle
  omega

end SparseGroup

open SparseGroup

/-- `sg_empty (g, i)` reads bit `i` of the word. -/
theorem sgEmpty_iff (g : SparseGroup D) {i : Nat} (hi : i < 64) :
    sgEmpty g i = true ↔ g.bits.toNat.testBit i = false := by
  have hand : (g.bits &&& (1 : UInt64) <<< i.toUInt64).toNat =
      (g.bits.toNat.testBit i).toNat * 2 ^ i := by
    rw [UInt64.and_toNat, uint64_one_shiftLeft_toNat hi, Nat.and_two_pow]
  have hzero : ∀ x : UInt64, x = 0 ↔ x.toNat = 0 :=
    fun x => ⟨fun h => h ▸ rfl, fun h => UInt64.toNat.inj (by rw [h]; rfl)⟩
  rw [sgEmpty, beq_iff_eq, hzero, hand]
  cases g.bits.toNat.testBit i <;> simp

/-- The bitmap of `sg_insert (g, i, data)`: bit `i` set, the others as they were. -/
theorem sgInsert_testBit (g : SparseGroup D) {i : Nat} (hi : i < 58) (data : D) {j : Nat}
    (hj : j < 58) :
    (sgInsert g i data).bits.toNat.testBit j = (g.bits.toNat.testBit j || decide (j = i)) := by
  show ((g.bits + (1 : UInt64) <<< 58 ||| (1 : UInt64) <<< i.toUInt64).toNat).testBit j = _
  have h58 : ((1 : UInt64) <<< 58).toNat = 2 ^ 58 := by decide
  rw [uint64_or_toNat, uint64_add_toNat, h58, uint64_one_shiftLeft_toNat (show i < 64 by omega),
    Nat.testBit_or, Nat.testBit_mod_two_pow, Nat.add_comm, Nat.testBit_two_pow_add_gt hj, Nat.testBit_two_pow]
  simp [show j < 64 by omega, eq_comm]

/-- Every element of `l.modify f i` is an element of `l` or `f` of one. -/
theorem forall_mem_modify {α : Type} {P : α → Prop} (f : α → α) : ∀ (l : List α) (i : Nat),
    (∀ x ∈ l, P x) → (∀ x ∈ l, P (f x)) → ∀ y ∈ l.modify f i, P y
  | [], _, _, _ => by simp
  | x :: l, 0, hl, hf => by
    rw [List.modify_zero_cons]
    exact List.forall_mem_cons.mpr
      ⟨hf x (List.mem_cons_self _ _), fun y hy => hl y (List.mem_cons_of_mem _ hy)⟩
  | x :: l, i + 1, hl, hf => by
    rw [List.modify_succ_cons]
    exact List.forall_mem_cons.mpr ⟨hl x (List.mem_cons_self _ _),
      forall_mem_modify f l i (fun y hy => hl y (List.mem_cons_of_mem _ hy))
        (fun y hy => hf y (List.mem_cons_of_mem _ hy))⟩

namespace HashTable

/-- Every group of the table is well formed. -/
def GroupsWellFormed (t : HashTable D) : Prop := ∀ g ∈ t.table, g.WellFormed

instance (t : HashTable D) : Decidable t.GroupsWellFormed :=
  inferInstanceAs (Decidable (∀ g ∈ t.table, g.WellFormed))

end HashTable

/-- `hash_init` leaves only empty groups. -/
theorem groupsWellFormed_hashInit (t : HashTable D) (size : Nat) :
    (hashInit t size).GroupsWellFormed := fun g hg => by
  rw [List.eq_of_mem_replicate hg]
  exact wellFormed_empty

/-- A store through an entry, as `hash_put` and `hash_delete` make, changes no bitmap and no slot
count. -/
theorem HashTable.GroupsWellFormed.setEntry {t : HashTable D} (ht : t.GroupsWellFormed)
    (group slot : Nat) (v : Option D) : (t.setEntry group slot v).GroupsWellFormed :=
  forall_mem_modify _ t.table group ht fun g hg =>
    ⟨(ht g hg).1, (List.length_set _ _ _).trans (ht g hg).2⟩

/-- Both ways `hash_put` reaches `sg_insert` can insert at a position whose bit is already set.
Reusing the tombstone of a deleted key: on a size-8 table `put 1, delete 1, put 1` inserts where
`1` was.  Growing the table: `put 2` on the size-2 table holding `1` inserts where `hash_resize`
re-inserted `1`.  Either way the group's count becomes `2` while one bit of its bitmap is set. -/
theorem put_breaks_group_count :
    (∃ t, run keyPolicy (hashNew 8) [.put 1, .delete 1, .put 1] = .ok ([none, some 1, none], t) ∧
        ¬ t.GroupsWellFormed) ∧
      ∃ t, run keyPolicy (hashNew 2) [.put 1, .put 2] = .ok ([none, none], t) ∧
        ¬ t.GroupsWellFormed :=
  ⟨⟨_, rfl, by decide⟩, ⟨_, rfl, by decide⟩⟩

end Sep2Client
