import CodeActions.Request
import Mathlib.Data.Int.ModEq
/-!
# Lengths of selections

Positions are words without a sign and lengths are words with one. A length is the distance from the
start of the selection to its end, brought into the range of lengths (`toInt_selectionLength`). The
range is shorter by one at its upper end, so a single distance has no opposite in it
(`bmod_neg_distance_iff`).
-/
namespace CodeActions

/-- How far `stop` lies behind `start`; less than 0 if it lies before. -/
def distance (start stop : UInt64) : ℤ := stop.toNat - start.toNat

section
variable (start stop : UInt64)

private theorem distance_swap : distance stop start = -distance start stop := by
  simp only [distance]
  omega

private theorem distance_lt : distance start stop < 2 ^ 64 := by
  have hstop := stop.toNat_lt
  simp only [distance]
  omega

private theorem neg_lt_distance : -2 ^ 64 < distance start stop := by
  have hstart := start.toNat_lt
  simp only [distance]
  omega

private theorem distance_neg_iff : distance start stop < 0 ↔ stop < start := by
  rw [UInt64.lt_iff_toNat_lt]
  simp only [distance]
  omega

/-- The opposite distance comes to the opposite length unless it is half of all positions. -/
theorem bmod_neg_distance_iff :
    (-distance start stop).bmod (2 ^ 64) = -(distance start stop).bmod (2 ^ 64) ↔
      (distance start stop).natAbs ≠ 2 ^ 63 := by
  have hupper := distance_lt start stop
  have hlower := neg_lt_distance start stop
  rw [Int.neg_bmod]
  split
  case isTrue hdvd =>
    have hvalues : distance start stop = 0 ∨ distance start stop = 2 ^ 63 ∨
        distance start stop = -2 ^ 63 := by omega
    rcases hvalues with h | h | h <;> rw [h] <;> decide
  case isFalse hdvd => omega

end

namespace Request
variable {r : Request} {stop : UInt64}

theorem toInt_selectionLength (hstop : r.stop = some stop) :
    r.selectionLength.toInt = (distance r.start stop).bmod (2 ^ 64) := by
  have hword : r.selectionLength.toInt = ((stop - r.start).toNat : ℤ).bmod (2 ^ 64) := by
    simp only [selectionLength, hstop]
    exact BitVec.toInt_eq_toNat_bmod _
  have hstart := r.start.toNat_lt
  rw [hword, UInt64.toNat_sub, distance, Int.bmod_eq_bmod_iff_bmod_sub_eq_zero]
  apply Int.bmod_eq_zero_of_dvd
  push_cast
  omega

private theorem toInt_selectionLength_eq_iff (hstop : r.stop = some stop) :
    r.selectionLength.toInt = distance r.start stop ↔
      -2 ^ 63 ≤ distance r.start stop ∧ distance r.start stop < 2 ^ 63 := by
  constructor
  · intro heq
    rw [← heq]
    exact ⟨Int64.le_toInt _, Int64.toInt_lt _⟩
  · rintro ⟨hlower, hupper⟩
    rw [toInt_selectionLength hstop]
    exact Int.bmod_eq_of_le (by omega) (by omega)

private theorem eq_selectionLength_iff (hstop : r.stop = some stop) (n : Int64) :
    n = r.selectionLength ↔ n.toInt ≡ distance r.start stop [ZMOD 2 ^ 64] := by
  rw [← Int64.toInt_inj, toInt_selectionLength hstop, eq_comm, Int.bmod_eq_iff (by decide)]
  have hlower := n.le_toInt
  have hupper := n.toInt_lt
  rw [Int.modEq_comm, Int.modEq_iff_dvd]
  push_cast
  omega

private theorem start_add_selectionLength (hstop : r.stop = some stop) :
    (r.start.toNat + r.selectionLength.toInt) % 2 ^ 64 = stop.toNat := by
  have hlength := (eq_selectionLength_iff hstop _).mp rfl
  have hupper := stop.toNat_lt
  rw [Int.ModEq, distance] at hlength
  omega

/-- The length of a selection is the one signed word that differs from the distance by a multiple of
all positions. It is the distance itself if that is in the range of signed words, and then it is
less than 0 just if the selection ends before it starts. Added to the start it always leads to the
end. The selection the other way round has the opposite length, unless start and end are half of
all positions apart. A cursor has length 0. -/
theorem selectionLength_exact (r : Request) :
    (r.stop = none → r.selectionLength = 0) ∧
    ∀ stop, r.stop = some stop →
      let length := r.selectionLength
      let d : ℤ := stop.toNat - r.start.toNat
      let swapped : Request := { r with start := stop, stop := some r.start }
      (∀ n : Int64, n = length ↔ n.toInt ≡ d [ZMOD 2 ^ 64]) ∧
      (length.toInt = d ↔ -2 ^ 63 ≤ d ∧ d < 2 ^ 63) ∧
      (length.toInt = d → (length < 0 ↔ stop < r.start)) ∧
      (r.start.toNat + length.toInt) % 2 ^ 64 = stop.toNat ∧
      (swapped.selectionLength.toInt = -length.toInt ↔ d.natAbs ≠ 2 ^ 63) := by
  refine ⟨fun hcursor => by simp only [selectionLength, hcursor], fun stop hstop => ?_⟩
  intro length d swapped
  refine ⟨eq_selectionLength_iff hstop, toInt_selectionLength_eq_iff hstop, ?_,
    start_add_selectionLength hstop, ?_⟩
  · intro hexact
    rw [Int64.lt_iff_toInt_lt, hexact]
    exact distance_neg_iff r.start stop
  · rw [toInt_selectionLength (r := swapped) rfl, toInt_selectionLength hstop, distance_swap]
    exact bmod_neg_distance_iff r.start stop

end Request
end CodeActions
