import BindBlocks.Vlq
import Mathlib.Tactic.Ring

/-! Reading the digits of a number gives the number back and leaves the digits after it. -/

namespace BindBlocks

namespace Vlq

theorem digitValue?_digit : ∀ n < 64, digitValue? (digit n) = some n := by decide +kernel

theorem digit_mem (n : Nat) : digit n ∈ alphabet := by
  rw [digit, List.getD_eq_getElem?_getD]
  cases h : alphabet[n]? with
  | none => decide
  | some c => exact List.mem_of_getElem? h

theorem mem_alphabet_of_mem_digits {w : Nat} {c : Char} (h : c ∈ digits w) : c ∈ alphabet := by
  induction w using Nat.strongRecOn with
  | ind w ih =>
    rw [digits] at h
    split at h
    · rw [List.mem_singleton.1 h]
      exact digit_mem w
    · rcases List.mem_cons.1 h with rfl | h
      · exact digit_mem _
      · exact ih (w / 32) (by omega) h

/-- No digit separates segments or lines. -/
theorem ne_separator_of_mem_encode {n : Int} {c : Char} (h : c ∈ encode n) : c ≠ ',' ∧ c ≠ ';' := by
  have hmem := mem_alphabet_of_mem_digits h
  have hcomma : ',' ∉ alphabet := by decide +kernel
  have hsemicolon : ';' ∉ alphabet := by decide +kernel
  exact ⟨fun heq => hcomma (heq ▸ hmem), fun heq => hsemicolon (heq ▸ hmem)⟩

/-- The digits of the high bits `w` of a word complete its low bits, `shift` of them. -/
theorem decodeFrom_digits {w low shift : Nat} (rest : Text) (hShift : shift ≤ 60)
    (hStep : shift % 5 = 0) (hLow : low < 2 ^ shift) (hWord : low + w * 2 ^ shift < 2 ^ 64) :
    decodeFrom low shift (digits w ++ rest) =
      (decodeFrom 0 0 rest).map (ofWord (low + w * 2 ^ shift) :: ·) := by
  induction w using Nat.strongRecOn generalizing low shift with
  | ind w ih =>
    rw [digits]
    by_cases hlast : w < 32
    · rw [if_pos hlast, List.singleton_append, decodeFrom, digitValue?_digit w (by omega)]
      simp only [show ¬ 60 < shift by omega, if_false, show ¬ 32 ≤ w by omega,
        Nat.mod_eq_of_lt hlast, Nat.shiftLeft_eq, Nat.one_mul, Nat.mod_eq_of_lt hWord]
    · have hdigit : w % 32 + 32 < 64 := by omega
      have hpower : 2 ^ (shift + 5) = 32 * 2 ^ shift := by rw [pow_add]; ring
      have hsplit : low + w % 32 * 2 ^ shift + w / 32 * 2 ^ (shift + 5) = low + w * 2 ^ shift := by
        have hw := Nat.mod_add_div w 32
        calc low + w % 32 * 2 ^ shift + w / 32 * 2 ^ (shift + 5)
            = low + (w % 32 + 32 * (w / 32)) * 2 ^ shift := by rw [hpower]; ring
          _ = low + w * 2 ^ shift := by rw [hw]
      have hlow : low + w % 32 * 2 ^ shift < 2 ^ (shift + 5) := by
        have := Nat.mul_le_mul_right (2 ^ shift) (show w % 32 ≤ 31 by omega)
        omega
      have hroom : shift + 5 ≤ 60 := by
        have hbit : 2 ^ (shift + 5) < 2 ^ 64 := by
          have := Nat.mul_le_mul_right (2 ^ shift) (show 32 ≤ w by omega)
          omega
        have := (Nat.pow_lt_pow_iff_right (by decide : 1 < 2)).1 hbit
        omega
      rw [if_neg hlast, List.cons_append, decodeFrom, digitValue?_digit _ hdigit]
      simp only [show ¬ 60 < shift by omega, if_false, show 32 ≤ w % 32 + 32 by omega, if_true,
        show (w % 32 + 32) % 32 = w % 32 by omega, Nat.shiftLeft_eq, Nat.one_mul]
      rw [Nat.mod_eq_of_lt (by omega), ih (w / 32) (by omega) hroom (by omega) hlow (by omega),
        hsplit]

theorem ofWord_word {n : Int} (h : n.natAbs < 2 ^ 63) : word n < 2 ^ 64 ∧ ofWord (word n) = n := by
  have hmod : 2 * n.natAbs % 2 ^ 64 = 2 * n.natAbs := Nat.mod_eq_of_lt (by omega)
  rw [word, Nat.shiftLeft_eq, Nat.one_mul, hmod, ofWord]
  by_cases hneg : n < 0
  · rw [if_pos hneg, if_pos (by omega)]
    omega
  · rw [if_neg hneg, if_neg (by omega)]
    omega

theorem decodeFrom_encode {n : Int} (h : n.natAbs < 2 ^ 63) (rest : Text) :
    decodeFrom 0 0 (encode n ++ rest) = (decodeFrom 0 0 rest).map (n :: ·) := by
  obtain ⟨hword, hvalue⟩ := ofWord_word h
  rw [encode, decodeFrom_digits rest (by decide) (by decide) (by decide) (by omega)]
  simp only [Nat.zero_add, Nat.pow_zero, Nat.mul_one, hvalue]

end Vlq

end BindBlocks
