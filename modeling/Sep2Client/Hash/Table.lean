import Sep2Client.Hash.Group

/-!
# The hash table of `hash.c`

A `HashTable` is an array of `(size + 57) / 58` sparse groups together with the counters `items`,
`min`, `max` and the insertion mark `(g, i)` that `hash_find` leaves for `hash_insert`.  This file
models `hash_init`, `hash_new`, `hash_find`, `hash_put`, `hash_resize`, `hash_delete`, `hash_get`,
the walk of `hash_iterate` / `hash_next` and `hash_erase`, over a key policy (`get_key`, `hash`,
`compare`) that is a parameter, as the function pointers of the C structure are.

Two features of the C code shape the model.

* The probe loop of `hash_find` has no bound.  `findLoop` runs it for an explicit number of
  probes; `hashFind` allows `size + 1` of them, after which a table whose size is a power of two
  has probed every index, so a loop that has not exited by then never exits: `hashFind` reports
  that as `Fault.diverges`.
* `hash_insert` writes through the mark `(ht->g, ht->i)` of the *last* `hash_find`.  After
  `hash_resize` that is the find made for the last element moved, or, when nothing was moved, a
  mark into the group array `hash_resize` has just freed.  `Mark.table` records which group array
  (`HashTable.alloc`, renewed by every `hash_init`) a mark points into.
-/

namespace Sep2Client

/-- The key policy of a table: the `get_key`, `hash` and `compare` function pointers of
`struct _HashTable`.  `hash` returns the bit pattern of the C `int` it computes. -/
structure HashPolicy (D K : Type) where
  getKey : D → K
  hash : K → UInt32
  compare : K → K → Int

/-- The mark `(ht->g, ht->i)`: group `group` of the group array numbered `table`, position `pos`. -/
structure Mark where
  table : Nat
  group : Nat
  pos : Nat
deriving Repr, DecidableEq

/-- `struct _HashTable` without its function pointers.  `alloc` numbers the group array that
`table` is (each `hash_init` allocates a new one); `mark` is `(ht->g, ht->i)`, `none` for a NULL
`ht->g`. -/
structure HashTable (D : Type) where
  size : Nat
  items : Int
  min : Nat
  max : Nat
  table : List (SparseGroup D)
  alloc : Nat
  mark : Option Mark
deriving Repr, DecidableEq

variable {D K : Type}

namespace HashTable

/-- `*e` for the entry `e = table[group].slot + slot`. -/
def entry (t : HashTable D) (group slot : Nat) : Option D :=
  ((t.table[group]?).bind fun g => g.slot[slot]?).join

/-- `*e = v` for the entry `e = table[group].slot + slot`. -/
def setEntry (t : HashTable D) (group slot : Nat) (v : Option D) : HashTable D :=
  { t with table := t.table.modify (fun g => { g with slot := g.slot.set slot v }) group }

end HashTable

open HashTable

/-- `hash_init (ht, size)`: a new array of `(size + 57) / 58` empty groups and fresh counters.  The
mark is left as it was. -/
def hashInit (t : HashTable D) (size : Nat) : HashTable D :=
  { t with size, items := 0, min := size * 40 / 100, max := size * 80 / 100,
           table := List.replicate ((size + 57) / 58) SparseGroup.empty, alloc := t.alloc + 1 }

/-- `hash_new (size)`: `hash_init` on a zeroed structure. -/
def hashNew (size : Nat) : HashTable D :=
  hashInit ⟨0, 0, 0, 0, [], 0, none⟩ size

/-- `hash_insert (ht, data)`: `sg_insert` at the mark. -/
def hashInsert (t : HashTable D) (data : D) : Except Fault (HashTable D) :=
  match t.mark with
  | some m =>
    if m.table = t.alloc then
      match t.table[m.group]? with
      | some g => .ok { t with table := t.table.set m.group (sgInsert g m.pos data) }
      | none => .error .outOfBounds
    else .error .useAfterFree
  | none => .error .outOfBounds

/-- The elements `hash_next` visits in a group: the non-NULL entries among its first `count`
slots. -/
def groupElements (g : SparseGroup D) : List D := (g.slot.take g.count).filterMap id

/-- The elements `hash_iterate` / `hash_next` visit: group by group. -/
def hashElements (t : HashTable D) : List D := t.table.flatMap groupElements

section Policy

variable (P : HashPolicy D K)

/-- The `while (1)` loop of `hash_find` at `index`, after `probes` probes, for at most `fuel` more
probes: the entry found (`none` for NULL) and the mark.  The next index is
`(index + ++probes) & mask` with `mask = size - 1`. -/
def findLoop (t : HashTable D) (key : K) :
    Nat → Nat → Nat → Option Mark → Except Fault (Option (Nat × Nat) × Option Mark)
  | 0, _, _, _ => .error .diverges
  | fuel + 1, index, probes, mark =>
    match t.table[index / 58]? with
    | none => .error .outOfBounds
    | some g =>
      let i := index % 58
      let here : Mark := ⟨t.alloc, index / 58, i⟩
      if g.slot.isEmpty || sgEmpty g i then .ok (none, mark <|> some here)
      else
        match g.slot[sgElement g i]? with
        | none => .error .outOfBounds
        | some (some d) =>
          if P.compare key (P.getKey d) = 0 then .ok (some (index / 58, sgElement g i), mark)
          else findLoop t key fuel ((index + (probes + 1)) &&& (t.size - 1)) (probes + 1) mark
        | some none =>
          findLoop t key fuel ((index + (probes + 1)) &&& (t.size - 1)) (probes + 1)
            (mark <|> some here)

/-- `hash_find (ht, key)`: start at `hash (key) & mask` with a NULL mark.  For a zero size C's
mask is `-1`; the table then has no group, so the first access is out of bounds whatever the index,
as it is for the index `0` the truncated `size - 1` gives. -/
def hashFind (t : HashTable D) (key : K) : Except Fault (Option (Nat × Nat) × HashTable D) :=
  (findLoop P t key (t.size + 1) ((P.hash key).toNat &&& (t.size - 1)) 0 none).map
    fun r => (r.1, { t with mark := r.2 })

/-- `hash_put (ht, data)`, with at most `depth` nested calls.  `hash_put` and `hash_resize` call
each other: a resize re-puts every element, and a re-put may resize again.  Each nested resize
moves fewer elements than the one around it, so `hashPut` starts with one more level than the
table has elements and the fuel never runs out (`hashPutN_depth`, in `Sep2Client.Hash.Resize`). -/
def hashPutN : Nat → HashTable D → D → Except Fault (HashTable D)
  | 0, _, _ => .error .diverges
  | depth + 1, t, data => do
    let (e, t) ← hashFind P t (P.getKey data)
    match e with
    | some (g, s) => pure (t.setEntry g s (some data))
    | none =>
      let t ← (if t.items = t.max then
          (hashElements t).foldlM (hashPutN depth) (hashInit t (2 * t.size))
        else pure t)
      let t ← hashInsert t data
      pure { t with items := t.items + 1 }

/-- `hash_put (ht, data)`. -/
def hashPut (t : HashTable D) (data : D) : Except Fault (HashTable D) :=
  hashPutN P ((hashElements t).length + 1) t data

/-- `hash_resize (ht, size)`: `hash_init` on the table, then `hash_put` of every element of the
old one. -/
def hashResize (t : HashTable D) (size : Nat) : Except Fault (HashTable D) :=
  (hashElements t).foldlM (hashPut P) (hashInit t size)

/-- `hash_delete (ht, key)`: clear the entry found, shrink when `items == min`, then decrement
`items`; the result is the entry cleared. -/
def hashDelete (t : HashTable D) (key : K) : Except Fault (Option D × HashTable D) := do
  let (e, t) ← hashFind P t key
  match e with
  | none => pure (none, t)
  | some (g, s) =>
    let tmp := t.entry g s
    let t := t.setEntry g s none
    let t ← (if t.items = t.min then hashResize P t (t.size / 2) else pure t)
    pure (tmp, { t with items := t.items - 1 })

/-- `hash_get (ht, key)`. -/
def hashGet (t : HashTable D) (key : K) : Except Fault (Option D × HashTable D) := do
  let (e, t) ← hashFind P t key
  pure (e.bind fun (g, s) => t.entry g s, t)

end Policy

end Sep2Client
