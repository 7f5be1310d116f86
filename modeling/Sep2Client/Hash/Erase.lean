import Sep2Client.Hash.Walk

/-!
# Erasing the element a walk is at

`hash_erase (p)` clears the entry the pointer of a walk is at and decrements `items`, so that a
`foreach_h` loop can delete the element it has just visited.  The store touches only a slot the
walk has passed: the walk goes on to visit what it would have visited (`restFrom_erased`), and
what it has passed is what it had passed before that element (`doneTo_erased`).  A `foreach_h`
loop that erases the elements a test picks therefore visits every element once and leaves exactly
the others, with `items` down by one for each erased (`foreachErase_eq`), on every table a history
reaches (`foreachErase_run`).
-/

namespace Sep2Client

variable {D K : Type}

open HashTable

/-- `hash_erase (p)`: `sg->slot[p->i] = NULL` in the pointer's group, then `ht->items--`.  A pointer
before the first slot, or past the slot array of its group, writes out of bounds. -/
def hashErase (t : HashTable D) (p : HashPointer) : Except Fault (HashTable D) :=
  match t.table[p.g]? with
  | some sg =>
    if 0 ≤ p.i ∧ p.i.toNat < sg.slot.length then
      .ok { t.setEntry p.g p.i.toNat none with items := t.items - 1 }
    else .error .outOfBounds
  | none => .error .outOfBounds

/-- The loop `foreach_h (h, hp, ht) if (erase (h)) hash_erase (hp);` from the pointer `p`, for at
most `fuel` elements: the elements visited and the table it leaves. -/
def walkErase (erase : D → Bool) : Nat → HashTable D → HashPointer →
    Except Fault (List D × HashTable D)
  | 0, _, _ => .error .diverges
  | fuel + 1, t, p => do
    let (d, p) ← hashNext t p
    match d with
    | none => pure ([], t)
    | some d =>
      let t ← if erase d then hashErase t p else pure t
      let (ds, t) ← walkErase erase fuel t p
      pure (d :: ds, t)

/-- That loop over a whole table. -/
def foreachErase (erase : D → Bool) (t : HashTable D) : Except Fault (List D × HashTable D) :=
  walkErase erase (walkFuel t) t ⟨0, -1⟩

/-- The elements a walk at slot `i` of group `g` has passed: those of the earlier groups, then
those among the group's first `count` slots below `i`. -/
def doneTo (t : HashTable D) (g i : Nat) : List D :=
  (t.table.take g).flatMap groupElements ++
    (((t.table.getD g .empty).slot.take (t.table.getD g .empty).count).take i).filterMap id

/-- Changing the element at index `n` is setting index `n` to the changed element. -/
theorem modify_eq_set_of_getElem? {α : Type} {l : List α} {n : Nat} {a : α} (f : α → α)
    (h : l[n]? = some a) : l.modify f n = l.set n (f a) := by
  refine List.ext_getElem? fun m => ?_
  rw [List.getElem?_modify, List.getElem?_set]
  by_cases hm : n = m
  · subst hm
    simp [h, (List.getElem?_eq_some_iff.mp h).1]
  · simp [hm]

/-- Setting index `n` leaves the indices below it. -/
theorem take_set_self {α : Type} (l : List α) (n : Nat) (a : α) : (l.set n a).take n = l.take n := by
  rw [List.set_eq_modify, List.take_modify, List.modify_eq_self (by simp)]

/-! ## What a walk has passed -/

section Group

variable {t : HashTable D} {g : Nat} {sg : SparseGroup D} (hget : t.table[g]? = some sg)
include hget

theorem doneTo_eq (i : Nat) : doneTo t g i =
    (t.table.take g).flatMap groupElements ++ ((sg.slot.take sg.count).take i).filterMap id := by
  rw [doneTo, getD_table hget]

/-- A walk splits the elements of a table into those it has passed and those it has to visit. -/
theorem hashElements_split (i : Nat) : hashElements t = doneTo t g i ++ restFrom t g i := by
  have hslots : (sg.slot.take sg.count).filterMap id =
      ((sg.slot.take sg.count).take i).filterMap id ++ ((sg.slot.take sg.count).drop i).filterMap id := by
    rw [← List.filterMap_append, List.take_append_drop]
  calc hashElements t = (t.table.take g ++ t.table.drop g).flatMap groupElements := by
        rw [List.take_append_drop]; rfl
    _ = doneTo t g i ++ restFrom t g i := by
        rw [List.flatMap_append, drop_table hget, List.flatMap_cons, groupElements, hslots,
          doneTo_eq hget, restFrom_eq hget]
        simp only [List.append_assoc]

/-- Passing a slot that holds `d` adds `d` to what the walk has passed. -/
theorem doneTo_succ {i : Nat} {d : D} (hi : i < sg.count) (hx : sg.slot[i]? = some (some d)) :
    doneTo t g (i + 1) = doneTo t g i ++ [d] := by
  rw [doneTo_eq hget, doneTo_eq hget, List.take_take, List.take_take, inf_eq_left.mpr (by omega),
    inf_eq_left.mpr (by omega), List.take_succ, hx, List.filterMap_append, List.append_assoc]
  rfl

/-! ## The store of `hash_erase` -/

variable {i : Nat}

theorem table_setEntry :
    (t.setEntry g i none).table = t.table.set g { sg with slot := sg.slot.set i none } :=
  modify_eq_set_of_getElem? _ hget

/-- `hash_erase` at a slot of a group of the table. -/
theorem hashErase_eq (hlen : i < sg.slot.length) :
    hashErase t ⟨g, i⟩ = .ok { t.setEntry g i none with items := t.items - 1 } := by
  simp [hashErase, hget, hlen]

variable {t₁ : HashTable D}

theorem getElem?_erased (ht₁ : t₁.table = t.table.set g { sg with slot := sg.slot.set i none }) :
    t₁.table[g]? = some { sg with slot := sg.slot.set i none } := by
  rw [ht₁, List.getElem?_set_self (List.getElem?_eq_some_iff.mp hget).1]

/-- Clearing the slot a walk is at leaves what the walk has still to visit. -/
theorem restFrom_erased (ht₁ : t₁.table = t.table.set g { sg with slot := sg.slot.set i none }) :
    restFrom t₁ g (i + 1) = restFrom t g (i + 1) := by
  have hs : ((sg.slot.set i none).take sg.count).drop (i + 1) = (sg.slot.take sg.count).drop (i + 1) := by
    rw [List.drop_take, List.drop_take, List.drop_set_of_lt _ _ (Nat.lt_succ_self i)]
  rw [restFrom_eq (getElem?_erased hget ht₁), restFrom_eq hget, ht₁,
    List.drop_set_of_lt _ _ (Nat.lt_succ_self g)]
  exact congrArg (fun l => List.filterMap id l ++ _) hs

/-- Clearing the slot a walk is at removes its element from what the walk has passed. -/
theorem doneTo_erased (ht₁ : t₁.table = t.table.set g { sg with slot := sg.slot.set i none })
    (hi : i < sg.count) (hlen : i < sg.slot.length) : doneTo t₁ g (i + 1) = doneTo t g i := by
  have hs : (((sg.slot.set i none).take sg.count).take (i + 1)).filterMap id =
      ((sg.slot.take sg.count).take i).filterMap id := by
    rw [List.take_take, List.take_take, inf_eq_left.mpr (by omega), inf_eq_left.mpr (by omega),
      List.take_succ, List.getElem?_set_self hlen, take_set_self, List.filterMap_append]
    simp
  rw [doneTo_eq (getElem?_erased hget ht₁), doneTo_eq hget, ht₁, take_set_self]
  exact congrArg (_ ++ ·) hs

end Group

/-! ## A walk that erases -/

/-- A walk that erases the elements `erase` picks, from a pointer into a table whose slots are
covered, visits what is left and leaves the elements it passed and those it did not erase, with
`items` down by one for each erased. -/
theorem walkErase_spec (erase : D → Bool) : ∀ (fuel : Nat) (t : HashTable D) (p : HashPointer)
    (i : Nat), t.GroupsCovered → p.i + 1 = i → p.g < t.table.length → (restFrom t p.g i).length < fuel →
    ∃ t', walkErase erase fuel t p = .ok (restFrom t p.g i, t') ∧
      hashElements t' = doneTo t p.g i ++ (restFrom t p.g i).filter (fun d => !erase d) ∧
      t'.items = t.items - ((restFrom t p.g i).filter erase).length
  | 0, _, _, _, _, _, _, h => absurd h (Nat.not_lt_zero _)
  | fuel + 1, t, p, i, hcov, hi, hg, hfuel => by
    have h := hashNext_spec (fun sg h => (hcov sg h).1) hi hg
    obtain ⟨sg₀, hget₀⟩ : ∃ sg, t.table[p.g]? = some sg := ⟨_, List.getElem?_eq_getElem hg⟩
    have hsplit := hashElements_split hget₀ i
    generalize restFrom t p.g i = l at h hfuel hsplit ⊢
    cases l with
    | nil =>
      obtain ⟨q, hq⟩ := h
      exact ⟨t, by rw [walkErase, hq]; rfl, by rw [hsplit]; rfl, by simp⟩
    | cons d ds =>
      obtain ⟨g', i', hq, hg', ⟨sg, hget, hi', hx⟩, rfl⟩ := h
      have hdone : doneTo t g' i' = doneTo t p.g i := by
        have := hashElements_split hget i'
        rw [restFrom_some hget hi' hx, hsplit] at this
        exact (List.append_cancel_right this).symm
      have hfuel' : (restFrom t g' (i' + 1)).length < fuel := Nat.lt_of_succ_lt_succ hfuel
      cases he : erase d with
      | true =>
        -- the element is erased, and the walk goes on in the table `hash_erase` leaves
        have hlen : i' < sg.slot.length := lt_of_lt_of_le hi' (hcov sg (List.getElem?_mem hget)).1
        obtain ⟨t₁, he₁, ht₁, hit₁⟩ : ∃ t₁, hashErase t ⟨g', i'⟩ = .ok t₁ ∧
            t₁.table = t.table.set g' { sg with slot := sg.slot.set i' none } ∧ t₁.items = t.items - 1 :=
          ⟨_, hashErase_eq hget hlen, table_setEntry hget, rfl⟩
        have hcov₁ : t₁.GroupsCovered := fun x hx =>
          hcov.setEntry g' i' none x (by rwa [table_setEntry hget, ← ht₁])
        obtain ⟨t', hw, he', hit⟩ := walkErase_spec erase fuel t₁ ⟨g', i'⟩ (i' + 1) hcov₁ rfl
          (by rw [ht₁, List.length_set]; exact hg') (by rw [restFrom_erased hget ht₁]; exact hfuel')
        rw [restFrom_erased hget ht₁] at hw he' hit
        refine ⟨t', ?_, ?_, ?_⟩
        · rw [walkErase, hq]
          simp only [bind, Except.bind, he, if_true, he₁, hw]
          rfl
        · rw [he', doneTo_erased hget ht₁ hi' hlen, hdone, List.filter_cons, he]
          rfl
        · rw [hit, hit₁, List.filter_cons, he, if_pos rfl, List.length_cons]
          push_cast
          ring
      | false =>
        -- the element stays, and the walk goes on in the same table
        obtain ⟨t', hw, he', hit⟩ :=
          walkErase_spec erase fuel t ⟨g', i'⟩ (i' + 1) hcov rfl hg' hfuel'
        refine ⟨t', ?_, ?_, ?_⟩
        · rw [walkErase, hq]
          simp only [bind, Except.bind, he, Bool.false_eq_true, if_false, pure, Except.pure, hw]
        · rw [he', doneTo_succ hget hi' hx, hdone, List.filter_cons, he]
          simp
        · rw [hit, List.filter_cons, he]
          rfl

/-- A `foreach_h` loop that erases the elements `erase` picks, on a table with a group whose slots
are covered, visits every element of the table, in order, and leaves exactly those not erased,
with `items` down by the number erased. -/
theorem foreachErase_eq (erase : D → Bool) {t : HashTable D} (hne : t.table ≠ [])
    (hcov : t.GroupsCovered) :
    ∃ t', foreachErase erase t = .ok (hashElements t, t') ∧
      hashElements t' = (hashElements t).filter (fun d => !erase d) ∧
      t'.items = t.items - ((hashElements t).filter erase).length := by
  have hg : 0 < t.table.length := List.length_pos.mpr hne
  have h := walkErase_spec erase (walkFuel t) t ⟨0, -1⟩ 0 hcov (by decide) hg
    (lt_of_le_of_lt (length_restFrom_le t 0 0) (walkMeasure_lt hg 0))
  rw [restFrom_zero hne] at h
  exact h

section Policy

variable (P : HashPolicy D K)

/-- On every table a history reaches from `hash_new` that has a group, a `foreach_h` loop that
erases, through `hash_erase`, the elements a test picks visits every element of the table once, in
order, without a fault, and leaves exactly the elements not erased, with `items` down by the number
erased. -/
theorem foreachErase_run (size : Nat) (ops : List (Op D K)) {rs : List (Option D)} {t : HashTable D}
    (h : run P (hashNew size) ops = .ok (rs, t)) (hne : t.table ≠ []) (erase : D → Bool) :
    ∃ t', foreachErase erase t = .ok (hashElements t, t') ∧
      hashElements t' = (hashElements t).filter (fun d => !erase d) ∧
      t'.items = t.items - ((hashElements t).filter erase).length :=
  foreachErase_eq erase hne (run_groupsCovered P ops (groupsCovered_hashInit _ size) h)

end Policy

/-- Erasing key `9` while walking the table of `put 1, put 9`. -/
theorem foreachErase_run_nine :
    ∃ t, run keyPolicy (hashNew 8) [.put 1, .put 9] = .ok ([none, none], t) ∧ t.table ≠ [] ∧
      ∃ t', foreachErase (· == 9) t = .ok (hashElements t, t') ∧
        hashElements t' = (hashElements t).filter (fun d => !(d == 9)) ∧
        t'.items = t.items - ((hashElements t).filter (· == 9)).length :=
  ⟨_, rfl, by decide, foreachErase_run keyPolicy 8 [.put 1, .put 9] rfl (by decide) _⟩

end Sep2Client
