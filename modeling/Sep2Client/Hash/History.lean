import Sep2Client.Hash.Keys

/-!
# Histories of a hash table

A history is a list of `hash_put`, `hash_delete` and `hash_get` calls on one table; `run` plays it
and collects what each call returns.  `mapRun` plays the same history on the finite map the table
is meant to stand for.

The table does not behave as that map.  Two defects of `hash.c` are at work.

* `hash_put` inserts at the mark of the last `hash_find`.  When it has just grown the table, that
  is the position where `hash_resize` re-inserted its last element, so the new element is written
  over it and the old one is pushed into the next slot (`get_after_growth_misses_key`).  The walk
  of `hash_next` still visits both elements, though `hash_get` retrieves neither
  (`walk_yields_unretrievable`).
* `hash_delete` decrements `items` after `hash_resize` has already recounted the live entries, so
  `items` ends one below the number of entries (`items_after_shrink`).  A table can then be shrunk
  past size `1` down to size `0`, where every probe is out of bounds (`size_reaches_zero`).

Tombstones keep their occupancy bit and are not counted in `items`, so put/delete churn can leave
a table whose every position is a tombstone; on such a table the probe loop never exits, for any
key (`findLoop_allTombstones`, `find_diverges_on_tombstones`).
-/

namespace Sep2Client

variable {D K : Type}

/-- One call of a history. -/
inductive Op (D K : Type)
  | put (data : D)
  | delete (key : K)
  | get (key : K)

section Policy

variable (P : HashPolicy D K)

/-- One call: what it returns (the data `hash_delete` and `hash_get` return, `none` for
`hash_put`) and the table after it. -/
def step (t : HashTable D) : Op D K → Except Fault (Option D × HashTable D)
  | .put data => (fun t => (none, t)) <$> hashPut P t data
  | .delete key => hashDelete P t key
  | .get key => hashGet P t key

/-- A history played from `t`. -/
def run (t : HashTable D) : List (Op D K) → Except Fault (List (Option D) × HashTable D)
  | [] => pure ([], t)
  | op :: ops => do
    let (r, t) ← step P t op
    let (rs, t) ← run t ops
    pure (r :: rs, t)

end Policy

section FiniteMap

variable [DecidableEq K] (getKey : D → K)

/-- One call on the finite map a table stands for. -/
def mapStep (m : K → Option D) : Op D K → Option D × (K → Option D)
  | .put data => (none, Function.update m (getKey data) (some data))
  | .delete key => (m key, Function.update m key none)
  | .get key => (m key, m)

/-- A history played on the finite map. -/
def mapRun (m : K → Option D) : List (Op D K) → List (Option D)
  | [] => []
  | op :: ops => (mapStep getKey m op).1 :: mapRun (mapStep getKey m op).2 ops

end FiniteMap

/-! ## The probe loop on a table of tombstones -/

/-- Every position `index < size` of `t` holds a tombstone: its bit is set and its slot is NULL. -/
def AllTombstones (t : HashTable D) : Prop :=
  ∀ index < t.size, ∃ g, t.table[index / 58]? = some g ∧ g.slot.isEmpty = false ∧
    sgEmpty g (index % 58) = false ∧ g.slot[sgElement g (index % 58)]? = some none

/-- On a table whose every position is a tombstone the probe loop never exits, whatever the key
and however many probes it is allowed. -/
theorem findLoop_allTombstones (P : HashPolicy D K) {t : HashTable D} (ht : AllTombstones t)
    (key : K) (fuel : Nat) :
    ∀ index probes mark, index < t.size →
      findLoop P t key fuel index probes mark = .error .diverges := by
  induction fuel with
  | zero => intros; rfl
  | succ fuel ih =>
    intro index probes mark hi
    obtain ⟨g, hg, hslot, hbit, hnull⟩ := ht index hi
    have hnext : (index + (probes + 1)) &&& (t.size - 1) < t.size :=
      lt_of_le_of_lt Nat.and_le_right (by omega)
    simp only [findLoop, hg, hslot, hbit, hnull, Bool.or_false, Bool.false_eq_true, if_false]
    exact ih _ _ _ hnext

/-! ## Histories on the 64-bit key policy

The data of these histories are the keys themselves (`get_key` returns its argument). -/

/-- `new_int64_hash` over keys that are their own data. -/
def keyPolicy : HashPolicy UInt64 UInt64 := int64Policy id

/-- Growing from size 2 to 4 loses the first key: `hash_put` of `2` triggers the resize, which
re-inserts `1`, and then inserts `2` at the position of `1`.  A finite map answers `1`. -/
theorem get_after_growth_misses_key :
    (run keyPolicy (hashNew 2) [.put 1, .put 2, .get 1]).map Prod.fst =
        .ok [none, none, none] ∧
      mapRun keyPolicy.getKey (fun _ => none) [.put 1, .put 2, .get 1] = [none, none, some 1] :=
  ⟨rfl, rfl⟩

/-- After the same growth the walk of `hash_iterate` / `hash_next` visits both keys, in the two
slots of the one group, while `hash_get` finds neither: key `2` was written at the position of
`1`, whose probe then meets `2` and stops at the next empty position, and the position of `2` was
never marked. -/
theorem walk_yields_unretrievable :
    ∃ t, run keyPolicy (hashNew 2) [.put 1, .put 2] = .ok ([none, none], t) ∧
      hashElements t = [2, 1] ∧
      (hashGet keyPolicy t 1).map Prod.fst = .ok none ∧
      (hashGet keyPolicy t 2).map Prod.fst = .ok none :=
  ⟨_, rfl, rfl, rfl, rfl⟩

/-- Put/delete churn over keys `1` and `3`, whose probes start at different positions, leaves both
positions of a size-2 table as tombstones; from then on the probe loop of `hash_find` never exits,
for every key. -/
theorem find_diverges_on_tombstones :
    ∃ t, run keyPolicy (hashNew 2) [.put 1, .delete 1, .put 3, .delete 3] =
        .ok ([none, some 1, none, some 3], t) ∧
      ∀ key fuel, findLoop keyPolicy t key fuel
        ((keyPolicy.hash key).toNat &&& (t.size - 1)) 0 none = .error .diverges := by
  refine ⟨⟨2, 0, 0, 1, [⟨[none, none], 0x0800000000000003⟩], 1, none⟩, rfl, fun key fuel =>
    findLoop_allTombstones keyPolicy ?_ key fuel _ _ _ (lt_of_le_of_lt Nat.and_le_right (by decide))⟩
  intro index (hi : index < 2)
  obtain rfl | rfl : index = 0 ∨ index = 1 := by omega
  all_goals exact ⟨_, rfl, rfl, rfl, rfl⟩

/-- Deleting the only element of a size-4 table shrinks it (`items == min == 1`); the resize
recounts `items` to `0` and `hash_delete` then decrements it to `-1`, with no entry left. -/
theorem items_after_shrink :
    ∃ t, run keyPolicy (hashNew 4) [.put 1, .delete 1] = .ok ([none, some 1], t) ∧
      t.items = -1 ∧ hashElements t = [] := ⟨_, rfl, rfl, rfl⟩

/-- Three rounds of put/delete of one key shrink a size-4 table to 2, 1 and then 0: the table has
no group left, and every lookup is out of bounds. -/
theorem size_reaches_zero :
    ∃ t, run keyPolicy (hashNew 4) [.put 1, .delete 1, .put 1, .delete 1, .put 1, .delete 1] =
        .ok ([none, some 1, none, some 1, none, some 1], t) ∧
      t.size = 0 ∧ t.table = [] ∧ ∀ key, hashGet keyPolicy t key = .error .outOfBounds :=
  ⟨_, rfl, rfl, rfl, fun _ => rfl⟩

end Sep2Client
