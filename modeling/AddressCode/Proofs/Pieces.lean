import AddressCode.Proofs.ByteOrder
import Mathlib.Data.List.TakeWhile

/-!
# AddressCode.Proofs.Pieces — reading bytes as characters loses none

The pieces of a byte string have its bytes, be they characters or not (`bytes_pieces`).  A piece
ends where it is complete, or in front of a byte that does not continue it.  So a text that was read
from bytes can be cut in front of a character: what stands before the cut is read in the same way if
any other characters follow (`Settled.append_ofString`).
-/

namespace AddressCode.Text.Utf8

variable {a b c : UInt8} {bs rest rest' more : List UInt8} {ps qs : List Piece}
  {p : Piece}

/-! ## The bytes of a piece -/

/-- The first bytes of the sequences of each width. -/
theorem bounds_of_width :
    (width a = 1 → a.toNat < 128) ∧ (width a = 2 → 194 ≤ a.toNat ∧ a.toNat ≤ 223) ∧
      (width a = 3 → 224 ≤ a.toNat ∧ a.toNat ≤ 239) ∧
      (width a = 4 → 240 ≤ a.toNat ∧ a.toNat ≤ 244) ∧ width a ≤ 4 := by
  simp only [width, Bool.and_eq_true, decide_eq_true_eq, UInt8.le_iff_toNat_le,
    UInt8.lt_iff_toNat_lt, UInt8.reduceToNat]
  split_ifs <;> first | omega | simp

theorem isTail_iff : isTail b = true ↔ 128 ≤ b.toNat ∧ b.toNat ≤ 191 := by
  simp [isTail, UInt8.le_iff_toNat_le]

/-- The second byte of a sequence continues it, and is neither that of an overlong form nor that of
a surrogate, nor one beyond the last character. -/
theorem isSecond_iff : isSecond a b = true ↔ isTail b = true ∧ (a.toNat = 224 → 160 ≤ b.toNat) ∧
    (a.toNat = 237 → b.toNat ≤ 159) ∧ (a.toNat = 240 → 144 ≤ b.toNat) ∧
    (a.toNat = 244 → b.toNat ≤ 143) := by
  simp only [isSecond, isTail, beq_iff_eq, ← UInt8.toNat_inj, UInt8.reduceToNat]
  split_ifs <;> simp [UInt8.le_iff_toNat_le] <;> omega

/-- The bytes of a piece that is more than one byte long. -/
inductive Continues (a : UInt8) : List UInt8 → Prop where
  | intro {b : UInt8} {tail : List UInt8} (hwidth : 2 ≤ width a) (hsecond : isSecond a b = true)
      (htail : ∀ x ∈ tail, isTail x = true) (hlength : tail.length ≤ width a - 2) :
      Continues a (b :: tail)

theorem run_cases (a : UInt8) (rest : List UInt8) :
    ∃ tail more, run a rest = a :: tail ∧ rest = tail ++ more ∧ (tail = [] ∨ Continues a tail) := by
  cases rest with
  | nil => exact ⟨[], [], rfl, rfl, Or.inl rfl⟩
  | cons b rest =>
    by_cases hb : 2 ≤ width a ∧ isSecond a b = true
    · obtain ⟨hwidth, hsecond⟩ := hb
      have hrun : run a (b :: rest) = a :: b :: (rest.take (width a - 2)).takeWhile isTail := by
        simp [run, hwidth, hsecond]
      obtain ⟨more, hmore⟩ := (List.takeWhile_prefix isTail).trans
        (List.take_prefix (width a - 2) rest)
      refine ⟨_, more, hrun, by rw [List.cons_append, hmore], Or.inr (.intro hwidth hsecond ?_ ?_)⟩
      · exact fun x hx => List.mem_takeWhile_imp hx
      · exact ((List.takeWhile_prefix isTail).length_le).trans (by simp)
    · refine ⟨[], b :: rest, ?_, rfl, Or.inl rfl⟩
      have hif : (decide (2 ≤ width a) && isSecond a b) = false := by
        rw [Bool.eq_false_iff, ne_eq, Bool.and_eq_true, decide_eq_true_eq]
        exact hb
      simp [run, hif]

/-- The bytes of the character with a given number. -/
theorem bytes_char_ofNat {n : Nat} (h : n.isValidChar) : (Piece.char (Char.ofNat n)).bytes =
    UInt8.ofNat (lead n) :: digits (following n) n := by
  have hn : (Char.ofNat n).toNat = n := by
    rw [Char.ofNat, dif_pos h]
    rfl
  rw [Piece.bytes, utf8EncodeChar_eq, hn]

theorem ofNat_eq_of_toNat {n : Nat} (h : n = b.toNat) : UInt8.ofNat n = b := by
  rw [h, UInt8.ofNat_toNat]

theorem bytes_char_two {n : Nat} (ha : 194 ≤ a.toNat ∧ a.toNat ≤ 223)
    (hb : 128 ≤ b.toNat ∧ b.toNat ≤ 191) (hn : n = a.toNat % 32 * 64 + b.toNat % 64) :
    (Piece.char (Char.ofNat n)).bytes = [a, b] := by
  have hfollowing : following n = 1 := by
    unfold following
    split_ifs <;> omega
  rw [bytes_char_ofNat (Or.inl (by omega)), lead, hfollowing]
  simp only [digits, mark]
  rw [ofNat_eq_of_toNat (b := a) (by omega), ofNat_eq_of_toNat (b := b) (by omega)]

theorem bytes_char_three {n : Nat} (ha : 224 ≤ a.toNat ∧ a.toNat ≤ 239)
    (hb : isSecond a b = true) (hc : isTail c = true)
    (hn : n = (a.toNat % 16 * 64 + b.toNat % 64) * 64 + c.toNat % 64) :
    (Piece.char (Char.ofNat n)).bytes = [a, b, c] := by
  rw [isSecond_iff, isTail_iff] at hb
  rw [isTail_iff] at hc
  have hfollowing : following n = 2 := by
    unfold following
    split_ifs <;> omega
  -- there is no surrogate among them
  have hvalid : n.isValidChar := by
    unfold Nat.isValidChar
    omega
  rw [bytes_char_ofNat hvalid, lead, hfollowing]
  simp only [digits, mark]
  rw [ofNat_eq_of_toNat (b := a) (by omega), ofNat_eq_of_toNat (b := b) (by omega),
    ofNat_eq_of_toNat (b := c) (by omega)]

theorem bytes_char_four {d : UInt8} {n : Nat} (ha : 240 ≤ a.toNat ∧ a.toNat ≤ 244)
    (hb : isSecond a b = true) (hc : isTail c = true) (hd : isTail d = true)
    (hn : n = ((a.toNat % 8 * 64 + b.toNat % 64) * 64 + c.toNat % 64) * 64 + d.toNat % 64) :
    (Piece.char (Char.ofNat n)).bytes = [a, b, c, d] := by
  rw [isSecond_iff, isTail_iff] at hb
  rw [isTail_iff] at hc hd
  have hfollowing : following n = 3 := by
    unfold following
    split_ifs <;> omega
  have hvalid : n.isValidChar := by
    unfold Nat.isValidChar
    omega
  rw [bytes_char_ofNat hvalid, lead, hfollowing]
  simp only [digits, mark]
  rw [ofNat_eq_of_toNat (b := a) (by omega), ofNat_eq_of_toNat (b := b) (by omega),
    ofNat_eq_of_toNat (b := c) (by omega), ofNat_eq_of_toNat (b := d) (by omega)]

/-- A character is written with the bytes that it was read from. -/
theorem bytes_first (a : UInt8) (rest : List UInt8) : (first a rest).bytes = run a rest := by
  unfold first
  dsimp only
  split
  · rename_i hfull
    rw [beq_iff_eq] at hfull
    obtain ⟨tail, more, hrun, -, htail⟩ := run_cases a rest
    obtain ⟨hone, htwo, hthree, hfour, hle⟩ := bounds_of_width (a := a)
    rw [hrun] at hfull ⊢
    rw [List.tail_cons]
    rcases htail with rfl | ⟨hwidth, hsecond, htail, hlength⟩
    · have hlow := hone hfull.symm
      have hbits : leadBits a = a.toNat := if_pos (Nat.le_of_eq hfull.symm)
      rw [List.foldl_nil, hbits, bytes_char_ofNat (Or.inl (by omega))]
      simp [lead, following, mark, digits, Nat.le_of_lt_succ hlow]
    · have hbits : leadBits a = a.toNat % Nat.pow 2 (7 - width a) := if_neg (by omega)
      rw [hbits, ← hfull]
      rename_i b tail
      rcases tail with _ | ⟨c, _ | ⟨d, _ | ⟨e, tail⟩⟩⟩
      · exact bytes_char_two (htwo hfull.symm) (isTail_iff.mp (isSecond_iff.mp hsecond).1) rfl
      · exact bytes_char_three (hthree hfull.symm) hsecond (htail c (by simp)) rfl
      · exact bytes_char_four (hfour hfull.symm) hsecond (htail c (by simp)) (htail d (by simp)) rfl
      · simp only [List.length_cons] at hfull
        omega
  · rfl

theorem bytes_piecesFrom (skip : Nat) (bs : List UInt8) :
    bytes (piecesFrom skip bs) = bs.drop skip := by
  induction bs generalizing skip with
  | nil => simp [piecesFrom, bytes]
  | cons a rest ih =>
    cases skip with
    | succ skip => exact ih skip
    | zero =>
      obtain ⟨tail, more, hrun, hrest, -⟩ := run_cases a rest
      rw [piecesFrom, bytes, List.flatMap_cons, bytes_first, ← bytes, ih, hrun, hrest]
      simp

/-- The pieces of a byte string have its bytes. -/
theorem bytes_pieces (bs : List UInt8) : bytes (pieces bs) = bs := bytes_piecesFrom 0 bs

/-! ## The pieces of a string -/

theorem piecesFrom_eq (skip : Nat) (bs : List UInt8) :
    piecesFrom skip bs = pieces (bs.drop skip) := by
  induction bs generalizing skip with
  | nil => simp [pieces, piecesFrom]
  | cons a rest ih =>
    cases skip with
    | succ skip => exact ih skip
    | zero => rfl

/-- Behind the first piece the rest is read alone. -/
theorem pieces_cons {tail : List UInt8} (h : run a (tail ++ more) = a :: tail) :
    pieces (a :: (tail ++ more)) = first a (tail ++ more) :: pieces more := by
  rw [pieces, piecesFrom, piecesFrom_eq, h]
  simp

theorem length_digits (k n : Nat) : (digits k n).length = k := by
  induction k with
  | zero => rfl
  | succ k ih => rw [digits, List.length_cons, ih]

theorem isTail_of_mem_digits {k n : Nat} (h : b ∈ digits k n) : isTail b = true := by
  induction k with
  | zero => simp [digits] at h
  | succ k ih =>
    rw [digits] at h
    rcases List.mem_cons.mp h with rfl | h
    · rw [isTail_iff, UInt8.toNat_ofNat']
      omega
    · exact ih h

theorem toNat_lead (c : Char) : (UInt8.ofNat (lead c.toNat)).toNat = lead c.toNat := by
  rw [UInt8.toNat_ofNat', Nat.mod_eq_of_lt (lead_lt (toNat_lt c))]

/-- The first byte of a character tells how many follow. -/
theorem width_lead (c : Char) : width (UInt8.ofNat (lead c.toNat)) = following c.toNat + 1 := by
  have hlt := toNat_lt c
  simp only [width, Bool.and_eq_true, decide_eq_true_eq, UInt8.le_iff_toNat_le,
    UInt8.lt_iff_toNat_lt, UInt8.reduceToNat, toNat_lead]
  unfold lead following
  split_ifs <;> simp only [mark] at * <;> omega

theorem isSecond_lead {k : Nat} {c : Char} (hk : following c.toNat = k + 1) :
    isSecond (UInt8.ofNat (lead c.toNat)) (UInt8.ofNat (c.toNat / 64 ^ k % 64 + 128)) = true := by
  have hvalid : c.toNat < 55296 ∨ 57343 < c.toNat ∧ c.toNat < 1114112 := c.valid
  have hrange : k = 0 ∧ c.toNat ≤ 2047 ∨ k = 1 ∧ 2047 < c.toNat ∧ c.toNat ≤ 65535 ∨
      k = 2 ∧ 65535 < c.toNat := by
    unfold following at hk
    split_ifs at hk <;> omega
  rw [isSecond_iff, isTail_iff, toNat_lead, UInt8.toNat_ofNat', lead, hk]
  rcases hrange with ⟨rfl, hle⟩ | ⟨rfl, hgt, hle⟩ | ⟨rfl, hgt⟩ <;>
    simp only [mark, Nat.reducePow, Nat.reduceAdd] <;> omega

/-- The bytes of a character are those of one piece. -/
theorem run_char (c : Char) (rest : List UInt8) :
    run (UInt8.ofNat (lead c.toNat)) (digits (following c.toNat) c.toNat ++ rest) =
      String.utf8EncodeChar c := by
  have hwidth := width_lead c
  rw [utf8EncodeChar_eq]
  cases hk : following c.toNat with
  | zero =>
    have hlow := bounds_of_width.1 (hk ▸ hwidth)
    exact run_of_lt (UInt8.lt_iff_toNat_lt.mpr hlow) _
  | succ k =>
    have hsecond := isSecond_lead hk
    generalize UInt8.ofNat (lead c.toNat) = a at hwidth hsecond ⊢
    have htake : (digits k c.toNat ++ rest).take k = digits k c.toNat :=
      List.take_left' (length_digits k _)
    have hall : (digits k c.toNat).takeWhile isTail = digits k c.toNat :=
      List.takeWhile_eq_self_iff.mpr fun x hx => isTail_of_mem_digits hx
    have htwo : 2 ≤ width a := by omega
    have hrest : width a - 2 = k := by omega
    rw [digits, List.cons_append, run, hsecond, hrest, htake, hall]
    simp [htwo]

theorem utf8EncodeChar_inj {c d : Char} (h : String.utf8EncodeChar c = String.utf8EncodeChar d) :
    c = d := by
  have hne : ∀ {c d : Char}, c < d → String.utf8EncodeChar c ≠ String.utf8EncodeChar d := by
    intro c d hlt heq
    have hbytes := utf8EncodeChar_append_lt hlt [] []
    rw [heq] at hbytes
    exact List.lt_irrefl _ hbytes
  rcases lt_trichotomy c d with hlt | heq | hgt
  · exact absurd h (hne hlt)
  · exact heq
  · exact absurd h.symm (hne hgt)

theorem exists_char_of_full (h : (run a rest).length = width a) : ∃ c, first a rest = .char c := by
  unfold first
  dsimp only
  rw [h]
  exact ⟨_, if_pos (beq_self_eq_true _)⟩

/-- The bytes of a character are read as the character, whatever stands behind them. -/
theorem pieces_char (c : Char) (rest : List UInt8) :
    pieces (String.utf8EncodeChar c ++ rest) = .char c :: pieces rest := by
  have hrun := run_char c rest
  have hlength : (run (UInt8.ofNat (lead c.toNat))
      (digits (following c.toNat) c.toNat ++ rest)).length =
        width (UInt8.ofNat (lead c.toNat)) := by
    rw [hrun, utf8EncodeChar_eq, width_lead, List.length_cons, length_digits]
  obtain ⟨d, hd⟩ := exists_char_of_full hlength
  have hbytes := bytes_first (UInt8.ofNat (lead c.toNat))
    (digits (following c.toNat) c.toNat ++ rest)
  rw [hd, hrun, Piece.bytes] at hbytes
  obtain rfl := utf8EncodeChar_inj hbytes
  rw [utf8EncodeChar_eq] at hrun ⊢
  rw [List.cons_append, pieces_cons hrun, hd]

/-- The bytes of a string are read as the string. -/
theorem pieces_encode (s : String) : pieces (encode s) = ofString s := by
  unfold encode ofString
  induction s.toList with
  | nil => rfl
  | cons c cs ih =>
    rw [List.map_cons, bytes, List.flatMap_cons, Piece.bytes, pieces_char, ← bytes, ih]

/-- The bytes of a string are shown as the string. -/
theorem display_pieces_encode (s : String) : display (pieces (encode s)) = s := by
  rw [pieces_encode, display_ofString]

/-- Bytes below 128 can be read as a string and written again. -/
theorem encode_display_pieces (h : ∀ b ∈ bs, b < 0x80) : encode (display (pieces bs)) = bs := by
  have htext : pieces bs = ofString (String.ofList (bs.map fun b => Char.ofNat b.toNat)) := by
    rw [pieces_of_lt h, ofString, String.toList_ofList, List.map_map]
    rfl
  rw [encode, htext, display_ofString, ← htext, bytes_pieces]

/-! ## Cutting in front of a character -/

/-- The bytes of a text are read as the text. -/
def Settled (ps : List Piece) : Prop := pieces (bytes ps) = ps

theorem settled_pieces (bs : List UInt8) : Settled (pieces bs) := by
  rw [Settled, bytes_pieces]

theorem settled_ofString (s : String) : Settled (ofString s) := pieces_encode s

/-- The first piece of a text, and the rest of it. -/
theorem Settled.cons_cases (h : Settled (p :: ps)) :
    ∃ a tail, p.bytes = a :: tail ∧ run a (tail ++ bytes ps) = a :: tail ∧
      first a (tail ++ bytes ps) = p ∧ Settled ps := by
  have hbytes : bytes (p :: ps) = p.bytes ++ bytes ps := List.flatMap_cons
  have hne : bytes (p :: ps) ≠ [] := by
    intro hnil
    rw [Settled, hnil] at h
    cases h
  obtain ⟨a, rest, hcons⟩ := List.exists_cons_of_ne_nil hne
  obtain ⟨tail, more, hrun, rfl, -⟩ := run_cases a rest
  rw [Settled, hcons, pieces_cons hrun] at h
  obtain ⟨rfl, rfl⟩ := List.cons.inj h
  have hmore := bytes_pieces more
  rw [hmore]
  exact ⟨a, tail, (bytes_first a _).trans hrun, hrun, rfl, settled_pieces more⟩

theorem takeWhile_take_congr {α : Type} {q : α → Bool} {k : Nat} {as more more' : List α}
    (h : ((as ++ more).take k).takeWhile q = as)
    (hhead : more'.head? = more.head? ∨ ∀ x ∈ more'.head?, q x = false) :
    ((as ++ more').take k).takeWhile q = as := by
  induction as generalizing k with
  | nil =>
    rcases k with _ | k
    · rfl
    · cases more' with
      | nil => rfl
      | cons x rest' =>
        have hx : q x = false := by
          rcases hhead with hsame | hnot
          · obtain ⟨rest, rfl⟩ := List.head?_eq_some_iff.mp hsame.symm
            by_contra hx
            simp [hx] at h
          · exact hnot x rfl
        simp [hx]
  | cons a as ih =>
    rcases k with _ | k
    · simp at h
    · rw [List.cons_append, List.take_succ_cons, List.takeWhile_cons] at h ⊢
      split at h
      · next ha => rw [if_pos ha, ih (List.cons.inj h).2]
      · cases h

/-- The rest of a text is settled as well. -/
theorem Settled.drop (h : Settled (ps ++ qs)) : Settled qs := by
  induction ps with
  | nil => exact h
  | cons p ps ih =>
    obtain ⟨-, -, -, -, -, hrest⟩ := Settled.cons_cases h
    exact ih hrest

/-- A piece ends where it did if the byte behind it is the same, or does not continue any piece. -/
theorem run_congr {tail more' : List UInt8} (h : run a (tail ++ more) = a :: tail)
    (hhead : more'.head? = more.head? ∨ ∀ x ∈ more'.head?, isTail x = false) :
    run a (tail ++ more') = a :: tail := by
  cases tail with
  | nil =>
    cases more' with
    | nil => rfl
    | cons b rest' =>
      have hb : (decide (2 ≤ width a) && isSecond a b) = false := by
        rcases hhead with hsame | hnot
        · obtain ⟨rest, rfl⟩ := List.head?_eq_some_iff.mp hsame.symm
          rw [← Bool.not_eq_true]
          intro hb
          have hlonger : run a (b :: rest) ≠ [a] := by
            rw [run, if_pos hb]
            simp
          exact hlonger h
        · have hsecond : isSecond a b = false := by
            by_contra hb
            have htail := (isSecond_iff.mp (Bool.not_eq_false _ ▸ hb)).1
            rw [hnot b rfl] at htail
            cases htail
          rw [hsecond, Bool.and_false]
      simp [run, hb]
  | cons b tail =>
    rw [List.cons_append, run] at h ⊢
    split at h
    · next hb =>
      rw [if_pos hb, takeWhile_take_congr (List.cons.inj (List.cons.inj h).2).2 hhead]
    · cases h

theorem isTail_lead (c : Char) : isTail (UInt8.ofNat (lead c.toNat)) = false := by
  have hlt := toNat_lt c
  rw [Bool.eq_false_iff, ne_eq, isTail_iff, toNat_lead]
  unfold lead following
  split_ifs <;> simp only [mark] <;> omega

theorem head_bytes_ofString {s : String} :
    ∀ x ∈ (bytes (ofString s)).head?, isTail x = false := by
  intro x hx
  unfold ofString at hx
  cases hs : s.toList with
  | nil => simp [hs, bytes] at hx
  | cons c cs =>
    rw [hs, List.map_cons, bytes, List.flatMap_cons, Piece.bytes, utf8EncodeChar_eq] at hx
    obtain rfl := Option.some.inj hx
    exact isTail_lead c

/-- What stands in front of a character can be followed by any other characters. -/
theorem Settled.append_ofString {c : Char} (h : Settled (ps ++ .char c :: qs)) (s : String) :
    Settled (ps ++ ofString s) := by
  induction ps with
  | nil => exact settled_ofString s
  | cons p ps ih =>
    obtain ⟨a, tail, hp, hrun, hfirst, hrest⟩ := Settled.cons_cases h
    have hsettled := ih hrest
    have hagain : run a (tail ++ bytes (ps ++ ofString s)) = a :: tail := by
      refine run_congr hrun ?_
      cases ps with
      | nil => exact Or.inr head_bytes_ofString
      | cons p' ps =>
        obtain ⟨a', tail', hp', -⟩ := Settled.cons_cases hrest
        simp [bytes, List.flatMap_cons, hp']
    have hpiece : first a (tail ++ bytes (ps ++ ofString s)) = p := by
      rw [← hfirst, first, first, hagain, hrun]
    rw [Settled, List.cons_append, bytes, List.flatMap_cons, hp, ← bytes, List.cons_append,
      pieces_cons hagain, hpiece, hsettled]

end AddressCode.Text.Utf8
