import AddressCode.Text.Utf8
import Mathlib.Data.List.Basic

/-!
# AddressCode.Proofs.Ascii — bytes below 128

A byte below 128 is a character of its own, whatever surrounds it: no other character has it among
its bytes (`eq_singleton_of_mem_utf8EncodeChar`), and bytes of this kind are read one by one
(`pieces_of_lt`).
-/

namespace AddressCode.Text

open Utf8

variable {b : UInt8} {bs : List UInt8} {c : Char}

@[simp]
theorem bytes_append (ps qs : List Piece) : bytes (ps ++ qs) = bytes ps ++ bytes qs :=
  List.flatMap_append

@[simp]
theorem encode_append (s t : String) : encode (s ++ t) = encode s ++ encode t := by
  simp [encode, ofString]

@[simp]
theorem encode_empty : encode "" = [] := rfl

/-- The digits of a number give it back. -/
theorem toDigits_inj {m n : Nat} (h : Nat.toDigits 10 m = Nat.toDigits 10 n) : m = n := by
  have hread := congrArg (Nat.ofDigitChars 10 · 0) h
  simpa only [Nat.ofDigitChars_ten_toDigits] using hread

theorem isDigit_toString {n : Nat} : ∀ c ∈ (toString n).toList, c.isDigit = true := by
  intro c hc
  rw [Nat.toString_eq_repr, Nat.toList_repr] at hc
  exact Nat.isDigit_of_mem_toDigits (by decide) (by decide) hc

theorem toString_inj {m n : Nat} (h : toString m = toString n) : m = n :=
  toDigits_inj (by rw [← Nat.toList_repr, ← Nat.toList_repr, ← Nat.toString_eq_repr, h,
    Nat.toString_eq_repr])

theorem toNat_of_isDigit (h : c.isDigit = true) : 48 ≤ c.toNat ∧ c.toNat ≤ 57 := by
  simp only [Char.isDigit, Bool.and_eq_true, decide_eq_true_eq] at h
  exact h

theorem toNat_lt (c : Char) : c.toNat < 1114112 := by
  rcases c.valid with hlow | ⟨-, hhigh⟩
  · exact Nat.lt_trans hlow (by decide)
  · exact hhigh

/-- A character that is a single byte. -/
theorem utf8EncodeChar_of_lt (h : c.toNat < 128) :
    String.utf8EncodeChar c = [UInt8.ofNat c.toNat] := by
  have hle : c.val.toNat ≤ 127 := Nat.le_of_lt_succ h
  rw [String.utf8EncodeChar, if_pos hle]
  rfl

/-- All bytes of a character that is not a single byte are 128 or more. -/
theorem le_of_mem_utf8EncodeChar (h : 128 ≤ c.toNat) (hb : b ∈ String.utf8EncodeChar c) :
    0x80 ≤ b := by
  have hlt : c.val.toNat < 1114112 := toNat_lt c
  have hgt : ¬ c.val.toNat ≤ 127 := Nat.not_le.mpr h
  rw [String.utf8EncodeChar, if_neg hgt] at hb
  rw [UInt8.le_iff_toNat_le]
  split at hb
  · simp only [List.mem_cons, List.not_mem_nil, or_false] at hb
    rcases hb with rfl | rfl <;> simp only [UInt8.toNat_ofNat'] <;> simp <;> omega
  · split at hb
    · simp only [List.mem_cons, List.not_mem_nil, or_false] at hb
      rcases hb with rfl | rfl | rfl <;> simp only [UInt8.toNat_ofNat'] <;> simp <;> omega
    · simp only [List.mem_cons, List.not_mem_nil, or_false] at hb
      rcases hb with rfl | rfl | rfl | rfl <;> simp only [UInt8.toNat_ofNat'] <;> simp <;> omega

/-- A byte below 128 is a character alone. -/
theorem eq_singleton_of_mem_utf8EncodeChar (hb : b ∈ String.utf8EncodeChar c) (hlt : b < 0x80) :
    String.utf8EncodeChar c = [b] ∧ c.toNat = b.toNat := by
  have hc : c.toNat < 128 := by
    refine Nat.lt_of_not_le fun hle => ?_
    have hge := le_of_mem_utf8EncodeChar hle hb
    exact absurd (UInt8.lt_of_lt_of_le hlt hge) (UInt8.lt_irrefl b)
  rw [utf8EncodeChar_of_lt hc] at hb ⊢
  obtain rfl := List.mem_singleton.mp hb
  refine ⟨rfl, ?_⟩
  rw [UInt8.toNat_ofNat']
  omega

/-! ## Pieces -/

theorem run_of_lt (h : b < 0x80) (rest : List UInt8) : run b rest = [b] := by
  have hwidth : width b = 1 := if_pos h
  cases rest with
  | nil => rfl
  | cons c rest => simp [run, hwidth]

theorem first_of_lt (h : b < 0x80) (rest : List UInt8) :
    first b rest = .char (Char.ofNat b.toNat) := by
  have hwidth : width b = 1 := if_pos h
  simp [first, run_of_lt h, hwidth, leadBits]

/-- Bytes below 128 are read as characters, one by one. -/
theorem pieces_of_lt (h : ∀ b ∈ bs, b < 0x80) :
    pieces bs = bs.map fun b => .char (Char.ofNat b.toNat) := by
  unfold pieces
  induction bs with
  | nil => rfl
  | cons b bs ih =>
    obtain ⟨hb, hbs⟩ := List.forall_mem_cons.mp h
    rw [piecesFrom, first_of_lt hb, run_of_lt hb, List.map_cons]
    exact congrArg _ (ih hbs)

/-- A run of bytes that is no character has a byte of 128 or more. -/
theorem exists_le_of_illFormed_mem {text : List UInt8} (h : .illFormed bs ∈ pieces text) :
    ∃ b ∈ bs, 0x80 ≤ b := by
  have hfrom : ∀ skip, .illFormed bs ∈ piecesFrom skip text → ∃ b ∈ bs, 0x80 ≤ b := by
    clear h
    induction text with
    | nil => simp [piecesFrom]
    | cons a text ih =>
      intro skip h
      cases skip with
      | succ skip => exact ih skip h
      | zero =>
        rcases List.mem_cons.mp h with h | h
        · by_cases ha : a < 0x80
          · rw [first_of_lt ha] at h
            cases h
          · have hrun : a ∈ run a text := by
              unfold run
              split
              · split <;> simp
              · simp
            unfold first at h
            dsimp only at h
            split at h
            · cases h
            · cases h
              exact ⟨a, hrun, UInt8.not_lt.mp ha⟩
        · exact ih _ h
  exact hfrom 0 h

end AddressCode.Text
