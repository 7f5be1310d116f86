import Sep2Client.Hash.Occupancy
import Sep2Client.Hash.Resize

/-!
# The walk of `hash_iterate` and `hash_next`

`foreach_h` walks a table with a `HashPointer`: `hash_iterate` points it before the first slot of
the first group, and each `hash_next` moves it on to the next slot whose entry is not NULL, among
the first `count` slots of a group, group after group, answering NULL past the last group.  The rest
of the model reads this walk as the list `hashElements`, which is what `hash_resize` re-puts.  This
file proves that reading right: on a table with at least one group and a slot for every position
below each count, `foreach_h` visits exactly `hashElements`, in order, without a fault
(`foreachH_eq_hashElements`), and every table a history reaches from `hash_new` is such a table
(`foreachH_run`).

The proof follows what is left to visit from a slot (`restFrom`): each pass of the loops of
`hash_next` either answers the first element left, or skips a NULL entry or an exhausted group and
leaves the same elements (`nextLoop_spec`).  A measure of the slots and groups ahead bounds the
passes (`walkMeasure`), so the fuel of the model is never what stops the walk.  That every group
keeps its slots covered (`GroupsCovered`) is an invariant of every call of a history, the tables
the defects of `hash_put` damage included (`run_groupsCovered`).
-/

namespace Sep2Client

/-- `HashPointer` without its table: the group `p->g` as an index, and the slot `p->i`, a C `int`
that `hash_iterate` sets to `-1`. -/
structure HashPointer where
  g : Nat
  i : Int
deriving Repr, DecidableEq

variable {D K : Type}

open HashTable

/-- Passes enough for any walk of `t`: one per slot below a count and one per group, and one more. -/
def walkFuel (t : HashTable D) : Nat := (t.table.map fun g => g.count + 1).sum + 1

/-- The loops of `hash_next` at slot `i` of group `g`, for at most `fuel` passes.  Below the count,
the `while` loop answers a slot that is not NULL and moves on from a NULL one.  At the count or past
it, `next_group` answers NULL at the last group, `ht->last`, and otherwise moves to slot `0` of the
next group; the test `++p->i == count` of `hash_next` jumps there too. -/
def nextLoop (t : HashTable D) : Nat → Nat → Nat → Except Fault (Option D × HashPointer)
  | 0, _, _ => .error .diverges
  | fuel + 1, g, i =>
    match t.table[g]? with
    | none => .error .outOfBounds
    | some sg =>
      if i < sg.count then
        match sg.slot[i]? with
        | none => .error .outOfBounds
        | some (some d) => .ok (some d, ⟨g, i⟩)
        | some none => nextLoop t fuel g (i + 1)
      else if (g : Int) = t.table.length - 1 then .ok (none, ⟨g, i⟩)
      else nextLoop t fuel (g + 1) 0

/-- `hash_next (p)`: `++p->i`, then the loops.  A slot index below `0` is read out of bounds. -/
def hashNext (t : HashTable D) (p : HashPointer) : Except Fault (Option D × HashPointer) :=
  if p.i + 1 < 0 then .error .outOfBounds else nextLoop t (walkFuel t) p.g (p.i + 1).toNat

/-- `hash_iterate (p, ht)`: point before the first slot of the first group, then `hash_next`. -/
def hashIterate (t : HashTable D) : Except Fault (Option D × HashPointer) := hashNext t ⟨0, -1⟩

/-- The elements `foreach_h` visits from the pointer `p`: `hash_next` until it answers NULL, for at
most `fuel` elements. -/
def walkFrom (t : HashTable D) : Nat → HashPointer → Except Fault (List D)
  | 0, _ => .error .diverges
  | fuel + 1, p => do
    let (d, p) ← hashNext t p
    match d with
    | none => pure []
    | some d =>
      let ds ← walkFrom t fuel p
      pure (d :: ds)

/-- `foreach_h (h, hp, ht)`: the elements it visits, in order. -/
def foreachH (t : HashTable D) : Except Fault (List D) := walkFrom t (walkFuel t) ⟨0, -1⟩

/-! ## What is left to visit -/

/-- The elements the walk has still to visit from slot `i` of group `g`: the entries that are not
NULL among the group's first `count` slots from `i` on, then those of the later groups. -/
def restFrom (t : HashTable D) (g i : Nat) : List D :=
  (((t.table.getD g .empty).slot.take (t.table.getD g .empty).count).drop i).filterMap id ++
    (t.table.drop (g + 1)).flatMap groupElements

/-- The slots and groups ahead of slot `i` of group `g`, each of which takes one pass. -/
def walkMeasure (t : HashTable D) (g i : Nat) : Nat :=
  (t.table.getD g .empty).count + 1 - min i (t.table.getD g .empty).count +
    ((t.table.drop (g + 1)).map fun g => g.count + 1).sum

theorem getD_table {t : HashTable D} {g : Nat} {sg : SparseGroup D} (h : t.table[g]? = some sg) :
    t.table.getD g .empty = sg := by
  rw [List.getD_eq_getElem?_getD, h]; rfl

theorem drop_table {t : HashTable D} {g : Nat} {sg : SparseGroup D} (h : t.table[g]? = some sg) :
    t.table.drop g = sg :: t.table.drop (g + 1) := by
  obtain ⟨hg, rfl⟩ := List.getElem?_eq_some_iff.mp h
  exact List.drop_eq_getElem_cons hg

/-- A slot below the count starts what is left of the group's slots from it. -/
theorem drop_take_slot {sg : SparseGroup D} {x : Option D} {i : Nat} (hi : i < sg.count)
    (hx : sg.slot[i]? = some x) :
    (sg.slot.take sg.count).drop i = x :: (sg.slot.take sg.count).drop (i + 1) := by
  obtain ⟨hlen, rfl⟩ := List.getElem?_eq_some_iff.mp hx
  rw [List.drop_eq_getElem_cons (by simp; omega), List.getElem_take]

section Group

variable {t : HashTable D} {g : Nat} {sg : SparseGroup D} (hget : t.table[g]? = some sg)
include hget

theorem restFrom_eq (i : Nat) : restFrom t g i =
    ((sg.slot.take sg.count).drop i).filterMap id ++ (t.table.drop (g + 1)).flatMap groupElements := by
  rw [restFrom, getD_table hget]

theorem walkMeasure_eq (i : Nat) : walkMeasure t g i =
    sg.count + 1 - min i sg.count + ((t.table.drop (g + 1)).map fun g => g.count + 1).sum := by
  rw [walkMeasure, getD_table hget]

/-- From a slot below the count that holds `d`, `d` is left to visit first. -/
theorem restFrom_some {i : Nat} {d : D} (hi : i < sg.count) (hx : sg.slot[i]? = some (some d)) :
    restFrom t g i = d :: restFrom t g (i + 1) := by
  rw [restFrom_eq hget, drop_take_slot hi hx, restFrom_eq hget]
  rfl

/-- A NULL slot below the count leaves nothing more to visit. -/
theorem restFrom_none {i : Nat} (hi : i < sg.count) (hx : sg.slot[i]? = some none) :
    restFrom t g i = restFrom t g (i + 1) := by
  rw [restFrom_eq hget, drop_take_slot hi hx, restFrom_eq hget]
  rfl

/-- Past the count of a group, what is left starts with the next group. -/
theorem restFrom_next_group {i : Nat} {sg' : SparseGroup D} (hi : sg.count ≤ i)
    (hget' : t.table[g + 1]? = some sg') : restFrom t g i = restFrom t (g + 1) 0 := by
  rw [restFrom_eq hget, List.drop_eq_nil_of_le (by simp; omega), drop_table hget', restFrom_eq hget',
    List.drop_zero]
  rfl

end Group

/-- From the first slot of the first group, the walk has the whole table to visit. -/
theorem restFrom_zero {t : HashTable D} (hne : t.table ≠ []) : restFrom t 0 0 = hashElements t := by
  obtain ⟨sg, rest, hsg⟩ := List.exists_cons_of_ne_nil hne
  simp [restFrom, hashElements, hsg, groupElements]

theorem length_flatMap_groupElements_le :
    ∀ l : List (SparseGroup D), (l.flatMap groupElements).length ≤ (l.map fun g => g.count + 1).sum
  | [] => le_rfl
  | g :: l => by
    have hg : (groupElements g).length ≤ g.count :=
      (List.length_filterMap_le _ _).trans (List.length_take_le _ _)
    have := length_flatMap_groupElements_le l
    simp only [List.flatMap_cons, List.length_append, List.map_cons, List.sum_cons]
    omega

/-- What is left is no longer than the passes ahead. -/
theorem length_restFrom_le (t : HashTable D) (g i : Nat) : (restFrom t g i).length ≤ walkMeasure t g i := by
  have hslots : ((((t.table.getD g .empty).slot.take (t.table.getD g .empty).count).drop i).filterMap
      id).length ≤ (t.table.getD g .empty).count - i :=
    (List.length_filterMap_le _ _).trans (by
      rw [List.length_drop]; exact Nat.sub_le_sub_right (List.length_take_le _ _) _)
  have := length_flatMap_groupElements_le (t.table.drop (g + 1))
  rw [restFrom, walkMeasure, List.length_append]
  omega

/-- The passes ahead of any slot of a group of the table fit in the fuel of `hash_next`. -/
theorem walkMeasure_lt {t : HashTable D} {g : Nat} (hg : g < t.table.length) (i : Nat) :
    walkMeasure t g i < walkFuel t := by
  obtain ⟨sg, hget⟩ : ∃ sg, t.table[g]? = some sg := ⟨_, List.getElem?_eq_getElem hg⟩
  have hsplit := congrArg (fun l => (l.map fun g => g.count + 1).sum) (List.take_append_drop g t.table)
  simp only [drop_table hget, List.map_append, List.sum_append, List.map_cons, List.sum_cons] at hsplit
  rw [walkMeasure_eq hget, walkFuel, ← hsplit]
  omega

/-! ## One call of `hash_next` -/

/-- What a pass of `hash_next` answers, against what was left to visit: NULL when nothing was, and
otherwise the first element left, at a pointer after which the rest is left. -/
def NextSpec (t : HashTable D) : List D → Except Fault (Option D × HashPointer) → Prop
  | [], r => ∃ p, r = .ok (none, p)
  | d :: ds, r => ∃ (g i : Nat), r = .ok (some d, ⟨g, i⟩) ∧ g < t.table.length ∧
      (∃ sg, t.table[g]? = some sg ∧ i < sg.count ∧ sg.slot[i]? = some (some d)) ∧ restFrom t g (i + 1) = ds

section Loop

variable {t : HashTable D} (hslot : ∀ sg ∈ t.table, sg.count ≤ sg.slot.length)
include hslot

/-- The loops of `hash_next` answer what is left to visit, given more passes than lie ahead. -/
theorem nextLoop_spec : ∀ (fuel g i : Nat), g < t.table.length → walkMeasure t g i < fuel →
    NextSpec t (restFrom t g i) (nextLoop t fuel g i)
  | 0, _, _, _, h => absurd h (Nat.not_lt_zero _)
  | fuel + 1, g, i, hg, hfuel => by
    obtain ⟨sg, hget⟩ : ∃ sg, t.table[g]? = some sg := ⟨_, List.getElem?_eq_getElem hg⟩
    have hlen := hslot sg (List.getElem?_mem hget)
    rw [walkMeasure_eq hget] at hfuel
    rw [nextLoop, hget]
    simp only
    split_ifs with hi hlast
    · -- a slot below the count
      obtain ⟨x, hx⟩ : ∃ x, sg.slot[i]? = some x := ⟨_, List.getElem?_eq_getElem (by omega)⟩
      rw [hx]
      cases x with
      | some d => rw [restFrom_some hget hi hx]; exact ⟨g, i, rfl, hg, ⟨sg, hget, hi, hx⟩, rfl⟩
      | none =>
        rw [restFrom_none hget hi hx]
        exact nextLoop_spec fuel g (i + 1) hg (by rw [walkMeasure_eq hget]; omega)
    · -- past the count of the last group
      rw [restFrom_eq hget, List.drop_eq_nil_of_le (by simp; omega), List.drop_eq_nil_of_le (by omega)]
      exact ⟨_, rfl⟩
    · -- past the count of a group with groups after it
      have hg' : g + 1 < t.table.length := by omega
      obtain ⟨sg', hget'⟩ : ∃ sg, t.table[g + 1]? = some sg := ⟨_, List.getElem?_eq_getElem hg'⟩
      rw [drop_table hget'] at hfuel
      simp only [List.map_cons, List.sum_cons] at hfuel
      rw [restFrom_next_group hget (by omega) hget']
      exact nextLoop_spec fuel (g + 1) 0 hg' (by rw [walkMeasure_eq hget']; omega)

/-- A call of `hash_next` from a pointer into the table answers what is left after it. -/
theorem hashNext_spec {p : HashPointer} {i : Nat} (hi : p.i + 1 = i) (hg : p.g < t.table.length) :
    NextSpec t (restFrom t p.g i) (hashNext t p) := by
  rw [hashNext, if_neg (by omega), show (p.i + 1).toNat = i by omega]
  exact nextLoop_spec hslot _ _ _ hg (walkMeasure_lt hg i)

/-! ## The walk of `foreach_h` -/

/-- From a pointer into the table, `foreach_h` visits what is left after it. -/
theorem walkFrom_spec : ∀ (fuel : Nat) (p : HashPointer) (i : Nat), p.i + 1 = i → p.g < t.table.length →
    (restFrom t p.g i).length < fuel → walkFrom t fuel p = .ok (restFrom t p.g i)
  | 0, _, _, _, _, h => absurd h (Nat.not_lt_zero _)
  | fuel + 1, p, i, hi, hg, hfuel => by
    have h := hashNext_spec hslot hi hg
    generalize restFrom t p.g i = l at h hfuel ⊢
    cases l with
    | nil =>
      obtain ⟨q, hq⟩ := h
      rw [walkFrom, hq]; rfl
    | cons d ds =>
      obtain ⟨g', i', hq, hg', -, rfl⟩ := h
      rw [walkFrom, hq]
      show (walkFrom t fuel ⟨g', i'⟩ >>= fun ds => pure (d :: ds)) = _
      rw [walkFrom_spec fuel ⟨g', i'⟩ (i' + 1) rfl hg' (Nat.lt_of_succ_lt_succ hfuel)]
      rfl

end Loop

/-- `foreach_h` visits exactly the elements the model reads a table as, in order, and ends without
a fault, on any table with a group and a slot for every position below each count. -/
theorem foreachH_eq_hashElements {t : HashTable D} (hne : t.table ≠ [])
    (hslot : ∀ sg ∈ t.table, sg.count ≤ sg.slot.length) : foreachH t = .ok (hashElements t) := by
  have hg : 0 < t.table.length := List.length_pos.mpr hne
  rw [foreachH, ← restFrom_zero hne]
  exact walkFrom_spec hslot _ ⟨0, -1⟩ 0 rfl hg
    (lt_of_le_of_lt (length_restFrom_le t 0 0) (walkMeasure_lt hg 0))

/-! ## The tables of a history

The walk needs a slot for every position below a count.  Every table a history reaches has one,
those the defects of `hash_put` damage included: `sg_insert` adds a slot each time it adds at most
one to the count and to the bitmap, as long as its slot array covers the bitmap, so that the rank
it inserts at is a slot, and the mark names a position below `58` (`MarkOk`). -/

namespace SparseGroup

/-- The slot array is as long as the count and as the number of occupied positions. -/
def Covered (g : SparseGroup D) : Prop :=
  g.count ≤ g.slot.length ∧ bitsBelow g.bits.toNat 58 ≤ g.slot.length

theorem WellFormed.covered {g : SparseGroup D} (hg : g.WellFormed) : g.Covered :=
  ⟨hg.2.ge, hg.1.symm.le.trans hg.2.ge⟩

theorem covered_set {g : SparseGroup D} (hg : g.Covered) (s : Nat) (v : Option D) :
    ({ g with slot := g.slot.set s v } : SparseGroup D).Covered := by
  unfold Covered
  rw [List.length_set]
  exact hg

/-- `sg_insert` at a position of the bitmap keeps the slot array covering the group. -/
theorem covered_sgInsert {g : SparseGroup D} (hg : g.Covered) {i : Nat} (hi : i < 58) (data : D) :
    (sgInsert g i data).Covered := by
  obtain ⟨hcount, hbits⟩ := hg
  have hrank : bitRank g.bits i ≤ g.slot.length := by
    rw [bitRank_eq_bitsBelow g.bits (by omega)]
    exact (bitsBelow_mono _ hi.le).trans hbits
  have hcount' := sgInsert_count_le g data hi
  have hbits' := @bitsBelow_set_bit g.bits.toNat (sgInsert g i data).bits.toNat i 58 hi
    fun j hj => sgInsert_testBit g hi data hj
  unfold Covered
  rw [sgInsert_slot_length g i data hrank, hbits']
  split <;> omega

end SparseGroup

open SparseGroup

namespace HashTable

/-- Every group of the table has its slots covered. -/
def GroupsCovered (t : HashTable D) : Prop := ∀ g ∈ t.table, g.Covered

theorem GroupsCovered.setEntry {t : HashTable D} (ht : t.GroupsCovered) (group slot : Nat)
    (v : Option D) : (t.setEntry group slot v).GroupsCovered :=
  forall_mem_modify _ t.table group ht fun g hg => covered_set (ht g hg) slot v

end HashTable

theorem groupsCovered_hashInit (t : HashTable D) (size : Nat) : (hashInit t size).GroupsCovered :=
  fun _ hg => List.eq_of_mem_replicate hg ▸ wellFormed_empty.covered

theorem groupsCovered_hashInsert {t t' : HashTable D} {data : D} (hm : MarkOk t)
    (ht : t.GroupsCovered) (h : hashInsert t data = .ok t') : t'.GroupsCovered := by
  unfold hashInsert at h
  split at h
  · rename_i m hmark
    split at h
    · split at h
      · rename_i g hg
        cases h
        exact fun g' hg' => (List.mem_or_eq_of_mem_set hg').elim (ht g') fun h => h ▸
          covered_sgInsert (ht g (List.getElem?_mem hg)) (hm m hmark) data
      · cases h
    · cases h
  · cases h

section Policy

variable (P : HashPolicy D K)

/-- `hash_find` changes the mark only. -/
theorem hashFind_table {t t' : HashTable D} {key : K} {e : Option (Nat × Nat)}
    (h : hashFind P t key = .ok (e, t')) : t'.table = t.table := by
  unfold hashFind at h
  cases hl : findLoop P t key (t.size + 1) ((P.hash key).toNat &&& (t.size - 1)) 0 none with
  | error _ => rw [hl] at h; cases h
  | ok r =>
    rw [hl] at h
    simp only [Except.map, Except.ok.injEq, Prod.mk.injEq] at h
    rw [← h.2]

theorem groupsCovered_hashFind {t t' : HashTable D} {key : K} {e : Option (Nat × Nat)}
    (ht : t.GroupsCovered) (h : hashFind P t key = .ok (e, t')) : t'.GroupsCovered :=
  fun g hg => ht g (hashFind_table P h ▸ hg)

/-- `hash_put` keeps the slots covered, through every resize it makes. -/
theorem groupsCovered_hashPutN : ∀ (d : Nat) {t t' : HashTable D} {data : D},
    t.GroupsCovered → hashPutN P d t data = .ok t' → t'.GroupsCovered
  | 0, _, _, _, _, h => by cases h
  | d + 1, t, t', data, ht, h => by
    rw [hashPutN] at h
    obtain ⟨⟨e, t₁⟩, hf, h⟩ := bind_eq_ok h
    have ht₁ := groupsCovered_hashFind P ht hf
    have hm₁ := (hashFind_markOk P hf).1
    rcases e with _ | ⟨g, s⟩
    · -- a new key: the resize re-puts the elements into new groups, then the data is inserted
      obtain ⟨t₂, h₂, h⟩ := bind_eq_ok h
      obtain ⟨t₃, h₃, h⟩ := bind_eq_ok h
      cases h
      have ht₂ : MarkOk t₂ ∧ t₂.GroupsCovered := by
        split at h₂
        · exact ⟨(foldlM_grows P (hashPutN_grows P d) _
              (show MarkOk (hashInit t₁ (2 * t₁.size)) from hm₁) h₂).1,
            foldlM_invariant (groupsCovered_hashPutN d) _ (groupsCovered_hashInit _ _) h₂⟩
        · cases h₂; exact ⟨hm₁, ht₁⟩
      have ht₃ := groupsCovered_hashInsert ht₂.1 ht₂.2 h₃
      exact ht₃
    · -- a key already there: its entry is overwritten
      cases h
      exact ht₁.setEntry g s _

theorem groupsCovered_hashDelete {t t' : HashTable D} {key : K} {r : Option D}
    (ht : t.GroupsCovered) (h : hashDelete P t key = .ok (r, t')) : t'.GroupsCovered := by
  obtain ⟨⟨e, t₁⟩, hf, h⟩ := bind_eq_ok h
  have ht₁ := groupsCovered_hashFind P ht hf
  rcases e with _ | ⟨g, s⟩
  · cases h; exact ht₁
  · obtain ⟨t₂, h₂, h⟩ := bind_eq_ok h
    cases h
    split at h₂
    · have ht₂ := foldlM_invariant (fun hc hp => groupsCovered_hashPutN P _ hc hp) _
        (groupsCovered_hashInit _ _) h₂
      exact ht₂
    · cases h₂; exact ht₁.setEntry g s none

theorem groupsCovered_step {t t' : HashTable D} {op : Op D K} {r : Option D}
    (ht : t.GroupsCovered) (h : step P t op = .ok (r, t')) : t'.GroupsCovered := by
  cases op with
  | put data =>
    obtain ⟨t₁, hp, h⟩ := bind_eq_ok h
    cases h
    exact groupsCovered_hashPutN P _ ht hp
  | delete key => exact groupsCovered_hashDelete P ht h
  | get key =>
    obtain ⟨⟨e, t₁⟩, hf, h⟩ := bind_eq_ok h
    cases h
    exact groupsCovered_hashFind P ht hf

theorem run_groupsCovered : ∀ (ops : List (Op D K)) {t t' : HashTable D} {rs : List (Option D)},
    t.GroupsCovered → run P t ops = .ok (rs, t') → t'.GroupsCovered
  | [], _, _, _, ht, h => by cases h; exact ht
  | _ :: ops, _, _, _, ht, h => by
    obtain ⟨⟨r, t₁⟩, hs, h⟩ := bind_eq_ok h
    obtain ⟨⟨rs', t₂⟩, hr, h⟩ := bind_eq_ok h
    cases h
    exact run_groupsCovered ops (groupsCovered_step P ht hs) hr

/-- On every table a history reaches from `hash_new`, `foreach_h` visits exactly the elements the
model reads the table as, in order, and ends without a fault, provided the table has a group: the
tables the defects of `hash_put` damage included. -/
theorem foreachH_run (size : Nat) (ops : List (Op D K)) {rs : List (Option D)} {t : HashTable D}
    (h : run P (hashNew size) ops = .ok (rs, t)) (hne : t.table ≠ []) :
    foreachH t = .ok (hashElements t) :=
  foreachH_eq_hashElements hne fun g hg =>
    (run_groupsCovered P ops (groupsCovered_hashInit _ size) h g hg).1

end Policy

/-- The table of `put 1, delete 1, put 1`, whose group counts two slots for one bit, is walked
without a fault. -/
theorem foreachH_run_reuse :
    ∃ t, run keyPolicy (hashNew 8) [.put 1, .delete 1, .put 1] = .ok ([none, some 1, none], t) ∧
      t.table ≠ [] ∧ foreachH t = .ok (hashElements t) :=
  ⟨_, rfl, by decide, foreachH_run keyPolicy 8 [.put 1, .delete 1, .put 1] rfl (by decide)⟩

end Sep2Client
