import Sep2Client.Hash.Keys

/-!
# Nested resizes

`hash_put` calls `hash_resize` when `items` reaches `max`, and `hash_resize` calls `hash_put` for
every element it moves, so the two recurse into each other.  `hashPutN` bounds the depth of that
recursion, and `hashPut` allows one level more than the table has elements.  This file shows that
this bound is never what stops `hash_put`: any depth above the number of elements gives the same
result (`hashPutN_depth`).

The reason is that a `hash_put` adds at most one element to the table (`hashPutN_grows`), even when
`hash_insert` writes through a mark left by a nested `hash_find`: every mark comes from a probe, so
it names a position below `58`, and `sg_insert` there adds one slot and at most one to the count.
A nested resize therefore starts from a table with fewer elements than the one around it.
-/

namespace Sep2Client

variable {D K : Type}

open HashTable

/-! ## Elements of a group -/

theorem length_filterMap_take_set (a : D) : ∀ (l : List (Option D)) (s c : Nat),
    (((l.set s (some a)).take c).filterMap id).length ≤ ((l.take c).filterMap id).length + 1
  | [], _, _ => by simp
  | _ :: _, _, 0 => by simp
  | x :: l, 0, c + 1 => by cases x <;> simp
  | x :: l, s + 1, c + 1 => by
    have := length_filterMap_take_set a l s c
    cases x <;> simpa

theorem length_filterMap_take_insertIdx (a : Option D) : ∀ (l : List (Option D)) (r c : Nat),
    (((l.insertIdx r a).take (c + 1)).filterMap id).length ≤ ((l.take c).filterMap id).length + 1
  | [], 0, _ => by cases a <;> simp
  | [], _ + 1, _ => by simp
  | x :: l, 0, c => by
    rw [List.insertIdx_zero, List.take_succ_cons]
    cases a <;> simp
  | x :: l, r + 1, 0 => by cases x <;> simp
  | x :: l, r + 1, c + 1 => by
    have := length_filterMap_take_insertIdx a l r c
    rw [List.insertIdx_succ_cons, List.take_succ_cons, List.take_succ_cons]
    cases x <;> simpa

/-- Storing a data in a slot adds at most one element to the group. -/
theorem groupElements_set (g : SparseGroup D) (s : Nat) (a : D) :
    (groupElements { g with slot := g.slot.set s (some a) }).length ≤
      (groupElements g).length + 1 :=
  length_filterMap_take_set a g.slot s g.count

/-- `sg_insert` at a position of the bitmap adds at most one element to the group. -/
theorem groupElements_sgInsert (g : SparseGroup D) {i : Nat} (data : D) (hi : i < 58) :
    (groupElements (sgInsert g i data)).length ≤ (groupElements g).length + 1 :=
  calc (groupElements (sgInsert g i data)).length
      ≤ (((sgInsert g i data).slot.take (g.count + 1)).filterMap id).length :=
        ((List.take_sublist_take_left _ (sgInsert_count_le g data hi)).filterMap id).length_le
    _ ≤ (groupElements g).length + 1 := length_filterMap_take_insertIdx _ _ _ _

/-- Changing one group, by at most one element, changes the table by at most one element. -/
theorem length_flatMap_modify {G : Type} (E : G → List D) (f : G → G) : ∀ (l : List G) (i : Nat),
    (∀ g ∈ l[i]?, (E (f g)).length ≤ (E g).length + 1) →
      ((l.modify f i).flatMap E).length ≤ (l.flatMap E).length + 1
  | [], _, _ => by simp
  | g :: l, 0, h => by
    have := h g (by simp)
    simp only [List.modify_zero_cons, List.flatMap_cons, List.length_append]
    omega
  | g :: l, i + 1, h => by
    have := length_flatMap_modify E f l i fun g' hg' => h g' (by simpa using hg')
    simp only [List.modify_succ_cons, List.flatMap_cons, List.length_append]
    omega

/-! ## Marks and elements along one `hash_put` -/

/-- The mark names a position of its group, as every mark a probe leaves does. -/
def MarkOk (t : HashTable D) : Prop := ∀ m ∈ t.mark, m.pos < 58

theorem hashElements_setEntry (t : HashTable D) (g s : Nat) (a : D) :
    (hashElements (t.setEntry g s (some a))).length ≤ (hashElements t).length + 1 :=
  length_flatMap_modify groupElements _ t.table g fun g' _ => groupElements_set g' s a

@[simp] theorem hashElements_hashInit (t : HashTable D) (size : Nat) :
    hashElements (hashInit t size) = [] := by
  simp [hashElements, hashInit, groupElements, SparseGroup.empty]

/-- `hash_insert` through a mark that names a position adds at most one element. -/
theorem hashInsert_grows {t t' : HashTable D} {data : D} (hm : MarkOk t)
    (h : hashInsert t data = .ok t') :
    t'.mark = t.mark ∧ (hashElements t').length ≤ (hashElements t).length + 1 := by
  unfold hashInsert at h
  split at h
  · rename_i m hmark
    split at h
    · split at h
      · rename_i g hg
        cases h
        refine ⟨rfl, ?_⟩
        show ((t.table.set m.group (sgInsert g m.pos data)).flatMap groupElements).length ≤ _
        rw [List.set_eq_modify]
        refine length_flatMap_modify groupElements _ _ _ fun g' hg' => ?_
        cases hg.symm.trans hg'
        exact groupElements_sgInsert g data (hm m hmark)
      · cases h
    · cases h
  · cases h

section Policy

variable (P : HashPolicy D K)

/-- A probe leaves a mark that names a position. -/
theorem findLoop_markOk (t : HashTable D) (key : K) : ∀ {fuel index probes : Nat}
    {mark m : Option Mark} {e : Option (Nat × Nat)}, (∀ x ∈ mark, x.pos < 58) →
    findLoop P t key fuel index probes mark = .ok (e, m) → ∀ x ∈ m, x.pos < 58
  | 0, _, _, _, _, _, _, h => by cases h
  | fuel + 1, index, probes, mark, m, e, hm, h => by
    have here : ∀ x ∈ (mark <|> some ⟨t.alloc, index / 58, index % 58⟩), x.pos < 58 := by
      cases mark with
      | none => simpa using Nat.mod_lt index (by decide)
      | some y => simpa using hm y rfl
    rw [findLoop] at h
    split at h
    · cases h
    · simp only at h
      split at h
      · cases h; exact here
      · split at h
        · cases h
        · split at h
          · cases h; exact hm
          · exact findLoop_markOk t key hm h
        · exact findLoop_markOk t key here h

/-- `hash_find` changes only the mark, to one that names a position. -/
theorem hashFind_markOk {t t' : HashTable D} {key : K} {e : Option (Nat × Nat)}
    (h : hashFind P t key = .ok (e, t')) : MarkOk t' ∧ hashElements t' = hashElements t := by
  unfold hashFind at h
  cases hl : findLoop P t key (t.size + 1) ((P.hash key).toNat &&& (t.size - 1)) 0 none with
  | error _ => rw [hl] at h; cases h
  | ok r =>
    obtain ⟨e', m⟩ := r
    rw [hl] at h
    simp only [Except.map, Except.ok.injEq, Prod.mk.injEq] at h
    obtain ⟨rfl, rfl⟩ := h
    exact ⟨findLoop_markOk P t key (fun _ h => by cases h) hl, rfl⟩

/-- Each `hash_put` of a run of them adds at most one element. -/
theorem foldlM_grows {d : Nat}
    (ih : ∀ {t t' : HashTable D} {data : D}, hashPutN P d t data = .ok t' →
      MarkOk t' ∧ (hashElements t').length ≤ (hashElements t).length + 1) :
    ∀ (l : List D) {acc acc' : HashTable D}, MarkOk acc → l.foldlM (hashPutN P d) acc = .ok acc' →
      MarkOk acc' ∧ (hashElements acc').length ≤ (hashElements acc).length + l.length
  | [], acc, _, hm, h => by cases h; exact ⟨hm, by simp⟩
  | x :: l, acc, acc', _, h => by
    rw [List.foldlM_cons] at h
    obtain ⟨acc₁, h₁, h⟩ := bind_eq_ok h
    obtain ⟨hm₁, he₁⟩ := ih h₁
    obtain ⟨hm₂, he₂⟩ := foldlM_grows ih l hm₁ h
    exact ⟨hm₂, by simp only [List.length_cons]; omega⟩

/-- A `hash_put` adds at most one element, and leaves a mark that names a position. -/
theorem hashPutN_grows : ∀ (d : Nat) {t t' : HashTable D} {data : D},
    hashPutN P d t data = .ok t' →
      MarkOk t' ∧ (hashElements t').length ≤ (hashElements t).length + 1
  | 0, _, _, _, h => by cases h
  | d + 1, t, t', data, h => by
    rw [hashPutN] at h
    obtain ⟨⟨e, t₁⟩, hf, h⟩ := bind_eq_ok h
    obtain ⟨hm₁, he₁⟩ := hashFind_markOk P hf
    rcases e with _ | ⟨g, s⟩
    · -- a new key: grow when full, then insert at the mark
      obtain ⟨t₂, h₂, h⟩ := bind_eq_ok h
      obtain ⟨t₃, h₃, h⟩ := bind_eq_ok h
      cases h
      obtain ⟨hm₂, he₂⟩ : MarkOk t₂ ∧ (hashElements t₂).length ≤ (hashElements t).length := by
        split at h₂
        · have := foldlM_grows P (hashPutN_grows d) _
            (show MarkOk (hashInit t₁ (2 * t₁.size)) from hm₁) h₂
          rw [hashElements_hashInit, he₁] at this
          simpa using this
        · cases h₂; exact ⟨hm₁, (congrArg List.length he₁).le⟩
      obtain ⟨hmark₃, he₃⟩ := hashInsert_grows hm₂ h₃
      exact ⟨fun m hm => hm₂ m (hmark₃ ▸ hm), by show (hashElements t₃).length ≤ _; omega⟩
    · -- a key already there: its entry is overwritten
      cases h
      exact ⟨hm₁, he₁ ▸ hashElements_setEntry t₁ g s data⟩

/-! ## The depth bound is never reached -/

/-- A run of `hash_put` calls from a table with fewer elements than the depth, minus the calls
still to come, gives the same result at every such depth. -/
theorem foldlM_depth {d d' : Nat}
    (ih : ∀ {t : HashTable D} (data : D), (hashElements t).length < d →
      (hashElements t).length < d' → hashPutN P d t data = hashPutN P d' t data) :
    ∀ (l : List D) (acc : HashTable D), (hashElements acc).length + l.length ≤ d →
      (hashElements acc).length + l.length ≤ d' →
      l.foldlM (hashPutN P d) acc = l.foldlM (hashPutN P d') acc
  | [], _, _, _ => rfl
  | x :: l, acc, h, h' => by
    simp only [List.length_cons] at h h'
    rw [List.foldlM_cons, List.foldlM_cons, ih x (by omega) (by omega)]
    cases hx : hashPutN P d' acc x with
    | error _ => rfl
    | ok acc₁ =>
      have := (hashPutN_grows P d' hx).2
      exact foldlM_depth ih l acc₁ (by omega) (by omega)

/-- `hash_put` at any depth above the number of elements does the same, so `hashPut`, which
allows one level more than the table has elements, never stops for want of depth. -/
theorem hashPutN_depth : ∀ {d d' : Nat} {t : HashTable D} (data : D),
    (hashElements t).length < d → (hashElements t).length < d' →
      hashPutN P d t data = hashPutN P d' t data
  | 0, _, _, _, h, _ => absurd h (Nat.not_lt_zero _)
  | _ + 1, 0, _, _, _, h => absurd h (Nat.not_lt_zero _)
  | d + 1, d' + 1, t, data, hd, hd' => by
    rw [hashPutN, hashPutN]
    refine bind_congr_ok fun ⟨e, t₁⟩ hf => ?_
    have he₁ := (hashFind_markOk P hf).2
    rcases e with _ | ⟨g, s⟩
    · dsimp only
      congr 1
      split
      · exact foldlM_depth P (fun data => hashPutN_depth data) _ _ (by simp [he₁]; omega)
          (by simp [he₁]; omega)
      · rfl
    · rfl

/-- On a size-2 table holding one key, `hash_put` of a second key grows the table; depth `2` and
depth `9` give the same result. -/
theorem hashPutN_depth_growth :
    ∃ t, hashPut (int64Policy id) (hashNew 2) 1 = .ok t ∧ (hashElements t).length < 2 ∧
      (hashElements t).length < 9 ∧
      hashPutN (int64Policy id) 2 t 2 = hashPutN (int64Policy id) 9 t 2 :=
  ⟨_, rfl, by decide, by decide, hashPutN_depth _ 2 (by decide) (by decide)⟩

/-- `hash_put` is `hash_put` at every depth above the number of elements. -/
theorem hashPut_eq_hashPutN {t : HashTable D} (data : D) {d : Nat}
    (hd : (hashElements t).length < d) : hashPut P t data = hashPutN P d t data :=
  hashPutN_depth P data (Nat.lt_succ_self _) hd

end Policy

end Sep2Client
