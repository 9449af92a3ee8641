import AddressCode.Proofs.Ascii
import Mathlib.Data.String.Basic

/-!
# AddressCode.Proofs.ByteOrder — texts compare like their bytes

The first byte of a character says how many bytes follow, and with them comes a number to base 64.
A greater character has a greater first byte, or the same one and then a greater number of as many
digits (`utf8EncodeChar_append_lt`); so a text is less than another one just if its bytes are
(`encode_lt_encode_iff`), and texts can be compared without reading them as characters.
-/

namespace AddressCode.Text.Utf8

variable {m n k : Nat} {c d : Char} {cs ds : List Char} {s t : String}

/-! ## Characters -/

/-- The last `k` digits of a number to base 64, as the bytes that follow the first one of a
character. -/
def digits : Nat → Nat → List UInt8
  | 0, _ => []
  | k + 1, n => UInt8.ofNat (n / 64 ^ k % 64 + 128) :: digits k n

/-- How many bytes follow the first one of the character with the number `n`. -/
def following (n : Nat) : Nat :=
  if n ≤ 127 then 0 else if n ≤ 2047 then 1 else if n ≤ 65535 then 2 else 3

/-- What marks the first byte of a character that `k` bytes follow. -/
def mark : Nat → Nat
  | 0 => 0
  | 1 => 192
  | 2 => 224
  | _ => 240

/-- The first byte of the character with the number `n`. -/
def lead (n : Nat) : Nat := n / 64 ^ following n + mark (following n)

theorem utf8EncodeChar_eq (c : Char) : String.utf8EncodeChar c =
    UInt8.ofNat (lead c.toNat) :: digits (following c.toNat) c.toNat := by
  have hmax := toNat_lt c
  rw [String.utf8EncodeChar, ← Char.toNat]
  generalize c.toNat = n at hmax ⊢
  unfold lead following
  split_ifs with hone htwo hthree
  · simp [mark, digits]
  · have hbits : n / 64 % 32 = n / 64 := by omega
    simp [mark, digits, hbits]
  · have hbits : n / 4096 % 16 = n / 4096 := by omega
    simp [mark, digits, hbits]
  · have hbits : n / 262144 % 8 = n / 262144 := by omega
    simp [mark, digits, hbits]

theorem lead_lt (h : n < 1114112) : lead n < 256 := by
  unfold lead following
  split_ifs <;> simp only [mark] <;> omega

theorem following_le (h : m < n) : following m ≤ following n := by
  unfold following
  split_ifs <;> omega

/-- More bytes follow a greater first byte. -/
theorem lead_lt_lead (h : following m < following n) : lead m < lead n := by
  unfold following at h
  unfold lead following
  split_ifs at h ⊢ <;> simp only [mark] <;> omega

/-- A greater character has a greater first byte, or the same one and as many bytes behind it. -/
theorem lead_cases (h : m < n) :
    lead m < lead n ∨ following m = following n ∧ m / 64 ^ following m = n / 64 ^ following m := by
  rcases Nat.lt_or_eq_of_le (following_le h) with hmore | hsame
  · exact Or.inl (lead_lt_lead hmore)
  · have hbits : m / 64 ^ following m ≤ n / 64 ^ following m := Nat.div_le_div_right h.le
    rcases Nat.lt_or_eq_of_le hbits with hlt | heq
    · rw [lead, lead, ← hsame]
      exact Or.inl (Nat.add_lt_add_right hlt _)
    · exact Or.inr ⟨hsame, heq⟩

theorem ofNat_lt (hn : n < 256) (h : m < n) : UInt8.ofNat m < UInt8.ofNat n := by
  rw [UInt8.lt_iff_toNat_lt, UInt8.toNat_ofNat', UInt8.toNat_ofNat', Nat.mod_eq_of_lt hn]
  exact Nat.lt_of_le_of_lt (Nat.mod_le _ _) h

/-- Of two numbers the one with the lesser rest has the lesser digits. -/
theorem digits_append_lt (h : m % 64 ^ k < n % 64 ^ k) (u v : List UInt8) :
    digits k m ++ u < digits k n ++ v := by
  induction k with
  | zero => simp [Nat.mod_one] at h
  | succ k ih =>
    rw [pow_succ, Nat.mod_mul, Nat.mod_mul] at h
    rw [digits, digits, List.cons_append, List.cons_append, List.cons_lt_cons_iff]
    rcases Nat.lt_trichotomy (m / 64 ^ k % 64) (n / 64 ^ k % 64) with hlt | heq | hgt
    · exact Or.inl (ofNat_lt (by omega) (by omega))
    · rw [heq] at h ⊢
      exact Or.inr ⟨rfl, ih (by omega)⟩
    · -- a greater digit cannot be made up for by those behind it
      have hrest : n % 64 ^ k < 64 ^ k := Nat.mod_lt _ (Nat.pow_pos (by decide))
      have hstep : 64 ^ k * (n / 64 ^ k % 64 + 1) ≤ 64 ^ k * (m / 64 ^ k % 64) :=
        Nat.mul_le_mul_left _ hgt
      rw [Nat.mul_add] at hstep
      omega

/-- Whatever follows, the bytes of a lesser character are less. -/
theorem utf8EncodeChar_append_lt (h : c < d) (u v : List UInt8) :
    String.utf8EncodeChar c ++ u < String.utf8EncodeChar d ++ v := by
  have hlt : c.toNat < d.toNat := h
  rw [utf8EncodeChar_eq, utf8EncodeChar_eq, List.cons_append, List.cons_append,
    List.cons_lt_cons_iff]
  rcases lead_cases hlt with hlead | ⟨hsame, hbits⟩
  · exact Or.inl (ofNat_lt (lead_lt (toNat_lt d)) hlead)
  · have hleads : lead c.toNat = lead d.toNat := by rw [lead, lead, ← hsame, hbits]
    have hrest : c.toNat % 64 ^ following c.toNat < d.toNat % 64 ^ following c.toNat := by
      have hc := Nat.div_add_mod c.toNat (64 ^ following c.toNat)
      have hd := Nat.div_add_mod d.toNat (64 ^ following c.toNat)
      rw [hbits] at hc
      omega
    rw [hleads, ← hsame]
    exact Or.inr ⟨rfl, digits_append_lt hrest u v⟩

/-! ## Texts -/

theorem flatMap_utf8EncodeChar_lt (h : cs < ds) :
    cs.flatMap String.utf8EncodeChar < ds.flatMap String.utf8EncodeChar := by
  induction cs generalizing ds with
  | nil =>
    cases ds with
    | nil => exact absurd h (List.not_lt_nil _)
    | cons d ds =>
      rw [List.flatMap_cons, utf8EncodeChar_eq]
      exact List.nil_lt_cons _ _
  | cons c cs ih =>
    cases ds with
    | nil => exact absurd h (List.not_lt_nil _)
    | cons d ds =>
      rw [List.flatMap_cons, List.flatMap_cons]
      rcases List.cons_lt_cons_iff.mp h with hlt | ⟨rfl, hrest⟩
      · exact utf8EncodeChar_append_lt hlt _ _
      · exact List.append_left_lt (ih hrest)

theorem encode_eq (s : String) : encode s = s.toList.flatMap String.utf8EncodeChar := by
  rw [encode, bytes, ofString, List.flatMap_map]
  rfl

/-- Texts are ordered like their bytes. -/
theorem encode_lt_encode_iff : encode s < encode t ↔ s < t := by
  have hmono : ∀ {s t : String}, s < t → encode s < encode t := by
    intro s t h
    rw [encode_eq, encode_eq]
    exact flatMap_utf8EncodeChar_lt (String.lt_iff_toList_lt.mp h)
  refine ⟨fun h => ?_, hmono⟩
  rcases lt_trichotomy s t with hlt | rfl | hgt
  · exact hlt
  · exact absurd h (List.lt_irrefl _)
  · exact absurd (hmono hgt) (List.lt_asymm h)

/-- Bytes compare like the first two that differ. -/
theorem compare_bytes_eq_lt_iff {as bs : List UInt8} : compare as bs = .lt ↔ as < bs := by
  induction as generalizing bs with
  | nil => cases bs <;> simp
  | cons a as ih =>
    cases bs with
    | nil => simp
    | cons b bs =>
      rw [List.compare_cons_cons, List.cons_lt_cons_iff, Ordering.then_eq_lt, ih,
        Std.LawfulLTCmp.eq_lt_iff_lt, Std.LawfulEqOrd.compare_eq_iff_eq]

end AddressCode.Text.Utf8
