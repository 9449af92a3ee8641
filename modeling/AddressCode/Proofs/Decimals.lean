import AddressCode.Number.Layout
import AddressCode.Number.Reading
import AddressCode.Proofs.Ascii
import AddressCode.Proofs.Rounding

/-!
# AddressCode.Proofs.Decimals — the text of a number reads back

Every number is read again from its text (`Number.parse_text`); what is no number is read as the
one value `Number.nan`.  Two numbers therefore have the same text only if they are the same number
or both none (`Number.text_inj`), whichever of the two layouts wrote them.

* `Number.Positive.toNumber_shortest`: the decimal that is written is read as the number.  The
  search stops at such a decimal or at the exact expansion of the number.
* `Reading.Numeral` is the shape of a numeral, with the decimal it stands for.  A layout writes a
  numeral of the same worth (`Layout.numeral_write`), and a numeral is read as the number nearest to
  its decimal (`Reading.Numeral.read`).

The characters of a text are few (`Number.mem_text`).
-/

namespace AddressCode

/-! ## The shortest decimal -/

namespace Decimal

theorem worth_stripZeros (k m : Nat) (e : Int) : (stripZeros k m e).worth = worth ⟨m, e⟩ := by
  induction k generalizing m e with
  | zero => rfl
  | succ k ih =>
    simp only [stripZeros]
    split
    · next hzero =>
      have hm : m = m / 10 * 10 := by
        have := beq_iff_eq.mp hzero
        omega
      rw [ih]
      conv_rhs => rw [hm]
      rw [worth, worth, zpow_add₀ (by norm_num)]
      push_cast
      ring
    · rfl

end Decimal

namespace Number

variable {x y : Number}

theorem toNumber_of_neighbour {e : Int} {d : Decimal} (h : x.neighbour? e = some d) :
    d.toNumber = x := by
  simp only [neighbour?] at h
  split at h
  -- where both neighbours read back, the nearer one is taken, and it is one of them
  case h_1 hlo hhi =>
    obtain rfl := Option.some.inj h
    rcases roundDiv_eq_or (x.ratio.1 * Nat.pow 10 (-e).toNat) (x.ratio.2 * Nat.pow 10 e.toNat) with
      heq | heq
    · rw [heq]
      exact of_decide_eq_true hlo
    · rw [heq]
      exact of_decide_eq_true hhi
  case h_2 hlo _ => exact Option.some.inj h ▸ of_decide_eq_true hlo
  case h_3 _ hhi => exact Option.some.inj h ▸ of_decide_eq_true hhi
  case h_4 => cases h

/-- The exact expansion has the worth of the number. -/
theorem worth_expansion (x : Number) : Decimal.worth ⟨x.significand * Nat.pow 2 x.exponent.toNat *
    Nat.pow 5 (-x.exponent).toNat, min x.exponent 0⟩ = x.worth := by
  simp only [Decimal.worth, worth, Nat.pow_eq]
  push_cast
  rcases le_total 0 x.exponent with he | he
  · obtain ⟨k, hk⟩ := Int.eq_ofNat_of_zero_le he
    rw [hk]
    simp
  · obtain ⟨k, hk⟩ := Int.eq_ofNat_of_zero_le (Int.neg_nonneg_of_nonpos he)
    have hexp : x.exponent = -(k : ℤ) := by omega
    -- a negative power of two is a power of five with as many places behind the point
    have hten : (10 : ℚ) ^ k = 2 ^ k * 5 ^ k := by rw [← mul_pow]; norm_num
    rw [min_eq_left he, hexp, neg_neg, Int.toNat_natCast, Int.toNat_neg_natCast, zpow_neg, zpow_neg,
      zpow_natCast, zpow_natCast, hten]
    field_simp

theorem Positive.toNumber_searchPlaces (h : x.Positive) (k : Nat) (e : Int) :
    (x.searchPlaces k e).toNumber = x := by
  induction k generalizing e with
  | zero => exact Decimal.toNumber_eq h x.worth_expansion
  | succ k ih =>
    rw [searchPlaces]
    split
    · next hd => exact toNumber_of_neighbour hd
    · exact ih _

/-- The shortest decimal of a number is read as that number. -/
theorem Positive.toNumber_shortest (h : x.Positive) : x.shortest.toNumber = x := by
  rw [shortest, Decimal.toNumber_congr (Decimal.worth_stripZeros _ _ _)]
  exact h.toNumber_searchPlaces _ _

theorem not_positive : ¬ zero.Positive ∧ ¬ infinity.Positive :=
  ⟨fun h => absurd h.nonzero (by decide), fun h => absurd h.finite (lt_irrefl _)⟩

/-- The decimal of a number has its first digit within the range of numbers. -/
theorem Positive.leading_shortest (h : x.Positive) : x.shortest.leading.natAbs < 10000 := by
  have hread := h.toNumber_shortest
  have hpos : 0 < x.shortest.significand := by
    refine Nat.pos_of_ne_zero fun hzero => not_positive.1 ?_
    rw [Decimal.toNumber, ofDecimal, hzero, if_pos (by decide)] at hread
    exact hread ▸ h
  rw [Decimal.toNumber_of_pos hpos] at hread
  -- beyond the range the decimal would be read as infinity or as zero
  split at hread
  · exact absurd (hread ▸ h) not_positive.2
  · split at hread
    · exact absurd (hread ▸ h) not_positive.1
    · omega

end Number

/-! ## Numerals -/

namespace Reading

/-- The text of a power of ten behind the digits of a numeral, if there is one, and its exponent. -/
inductive Power : List Char → Int → Prop where
  | none : Power [] 0
  | positive {ds : List Char} (hne : ds ≠ []) (hds : ∀ c ∈ ds, c.isDigit = true)
      (hlt : Nat.ofDigitChars 10 ds 0 < 10000) : Power ('e' :: '+' :: ds) (Nat.ofDigitChars 10 ds 0)
  | negative {ds : List Char} (hne : ds ≠ []) (hds : ∀ c ∈ ds, c.isDigit = true)
      (hlt : Nat.ofDigitChars 10 ds 0 < 10000) :
      Power ('e' :: '-' :: ds) (-(Nat.ofDigitChars 10 ds 0 : Int))

/-- The text of a numeral and its decimal: digits, with or without a point among them, and a power
of ten. -/
inductive Numeral : List Char → Decimal → Prop where
  | whole {ds tail : List Char} {e : Int} (hne : ds ≠ []) (hds : ∀ c ∈ ds, c.isDigit = true)
      (htail : Power tail e) : Numeral (ds ++ tail) ⟨Nat.ofDigitChars 10 ds 0, e⟩
  | fraction {ds fs tail : List Char} {e : Int} (hne : ds ≠ []) (hds : ∀ c ∈ ds, c.isDigit = true)
      (hfs : ∀ c ∈ fs, c.isDigit = true) (htail : Power tail e) :
      Numeral (ds ++ '.' :: (fs ++ tail)) ⟨Nat.ofDigitChars 10 (ds ++ fs) 0, e - fs.length⟩

/-- The characters of numerals. -/
def NumeralChar (c : Char) : Prop := c.isDigit = true ∨ c = '.' ∨ c = 'e' ∨ c = '+' ∨ c = '-'

instance (c : Char) : Decidable (NumeralChar c) := inferInstanceAs (Decidable (_ ∨ _))

variable {cs ds tail : List Char} {d : Decimal} {e : Int} {m : Mantissa} {c : Char}

theorem Power.chars (h : Power cs e) : ∀ c ∈ cs, NumeralChar c := by
  cases h with
  | none => nofun
  | positive _ hds _ =>
    refine List.forall_mem_cons.mpr ⟨by simp [NumeralChar], List.forall_mem_cons.mpr ?_⟩
    exact ⟨by simp [NumeralChar], fun c hc => Or.inl (hds c hc)⟩
  | negative _ hds _ =>
    refine List.forall_mem_cons.mpr ⟨by simp [NumeralChar], List.forall_mem_cons.mpr ?_⟩
    exact ⟨by simp [NumeralChar], fun c hc => Or.inl (hds c hc)⟩

theorem Numeral.chars (h : Numeral cs d) : ∀ c ∈ cs, NumeralChar c := by
  cases h with
  | whole _ hds htail =>
    exact List.forall_mem_append.mpr ⟨fun c hc => Or.inl (hds c hc), htail.chars⟩
  | fraction _ hds hfs htail =>
    refine List.forall_mem_append.mpr ⟨fun c hc => Or.inl (hds c hc), List.forall_mem_cons.mpr ?_⟩
    refine ⟨by simp [NumeralChar], List.forall_mem_append.mpr ?_⟩
    exact ⟨fun c hc => Or.inl (hfs c hc), htail.chars⟩

/-- A numeral begins with a digit. -/
theorem Numeral.head (h : Numeral cs d) : ∃ c rest, cs = c :: rest ∧ c.isDigit = true := by
  cases h with
  | whole hne hds _ =>
    obtain ⟨c, ds, rfl⟩ := List.exists_cons_of_ne_nil hne
    exact ⟨c, _, rfl, hds c List.mem_cons_self⟩
  | fraction hne hds _ _ =>
    obtain ⟨c, ds, rfl⟩ := List.exists_cons_of_ne_nil hne
    exact ⟨c, _, rfl, hds c List.mem_cons_self⟩

/-! ### Digits -/

theorem ne_of_isDigit (h : c.isDigit = true) {b : Char} (hb : b.isDigit = false) : c ≠ b := by
  rintro rfl
  rw [h] at hb
  cases hb

theorem digit?_of_isDigit (h : c.isDigit = true) : digit? false c = some (c.toNat - 48) := by
  obtain ⟨hlow, hhigh⟩ := Text.toNat_of_isDigit h
  have hlt : c.toNat - 48 < 10 := by omega
  simp [digit?, hexValue?, h, hlt]

/-- Digits are read into the value, and into the places once there was a point. -/
theorem mantissa_digits (m : Mantissa) (hds : ∀ c ∈ ds, c.isDigit = true) (rest : List Char) :
    mantissa false m (ds ++ rest) = mantissa false
      { value := Nat.ofDigitChars 10 ds m.value
        places := if m.hasPoint then m.places + ds.length else m.places
        hasDigit := m.hasDigit || !ds.isEmpty
        hasPoint := m.hasPoint } rest := by
  induction ds generalizing m with
  | nil => simp
  | cons c ds ih =>
    obtain ⟨hc, hds⟩ := List.forall_mem_cons.mp hds
    have hunderscore : (c == '_') = false := beq_eq_false_iff_ne.mpr (ne_of_isDigit hc (by decide))
    have hpoint : (c == '.') = false := beq_eq_false_iff_ne.mpr (ne_of_isDigit hc (by decide))
    rw [List.cons_append, mantissa]
    simp only [hunderscore, hpoint, digit?_of_isDigit hc, Bool.false_eq_true, if_false]
    rw [ih _ hds, Nat.ofDigitChars_cons, Nat.mul_comm m.value]
    congr 2
    · cases m.hasPoint
      · rfl
      · simp only [if_true, List.length_cons]
        omega
    · simp

/-- The power of ten is left when the digits are read. -/
theorem mantissa_power (m : Mantissa) (h : Power tail e) : mantissa false m tail = (m, tail) := by
  cases h <;> rfl

theorem le_ofDigitChars (ds : List Char) (n : Nat) : n ≤ Nat.ofDigitChars 10 ds n := by
  rw [Nat.ofDigitChars_eq_ofDigitChars_zero]
  exact le_add_right (Nat.le_mul_of_pos_left n (by positivity))

/-- The digits of an exponent count as long as there are not too many of them. -/
theorem exponentDigits_eq {n : Nat} (hds : ∀ c ∈ ds, c.isDigit = true)
    (hlt : Nat.ofDigitChars 10 ds n < 10000) :
    exponentDigits n ds = (Nat.ofDigitChars 10 ds n, []) := by
  induction ds generalizing n with
  | nil => rfl
  | cons c ds ih =>
    obtain ⟨hc, hds⟩ := List.forall_mem_cons.mp hds
    have hunderscore : (c == '_') = false := beq_eq_false_iff_ne.mpr (ne_of_isDigit hc (by decide))
    have hn : n < 10000 := lt_of_le_of_lt (le_ofDigitChars (c :: ds) n) hlt
    rw [exponentDigits]
    simp only [hunderscore, hc, hn, Bool.false_eq_true, if_true, if_false]
    rw [Nat.mul_comm n, Nat.ofDigitChars_cons]
    exact ih hds (by rwa [← Nat.ofDigitChars_cons])

theorem exponent?_power (h : Power ('e' :: cs) e) : exponent? cs = some (e, []) := by
  cases h with
  | positive hne hds hlt =>
    obtain ⟨c, ds, rfl⟩ := List.exists_cons_of_ne_nil hne
    simp only [exponent?, hds c List.mem_cons_self, if_true, exponentDigits_eq hds hlt]
    rfl
  | negative hne hds hlt =>
    obtain ⟨c, ds, rfl⟩ := List.exists_cons_of_ne_nil hne
    simp only [exponent?, hds c List.mem_cons_self, if_true, exponentDigits_eq hds hlt]

/-! ### Reading a numeral -/

theorem underscoresFit_of_not_mem {hex : Bool} {seen : Seen} (hcs : '_' ∉ cs)
    (hseen : seen ≠ .underscore) : underscoresFit hex seen cs = true := by
  induction cs generalizing seen with
  | nil => simpa [underscoresFit] using hseen
  | cons c cs ih =>
    obtain ⟨hc, hcs⟩ := not_or.mp (mt List.mem_cons.mpr hcs)
    rw [underscoresFit]
    split
    · exact ih hcs (by simp)
    · simp [Ne.symm hc, hseen, ih hcs]

theorem NumeralChar.ne (h : NumeralChar c) : c ≠ '_' ∧ c ≠ 'x' ∧ c ≠ 'X' := by
  rcases h with h | rfl | rfl | rfl | rfl
  · exact ⟨ne_of_isDigit h (by decide), ne_of_isDigit h (by decide), ne_of_isDigit h (by decide)⟩
  all_goals decide

/-- What is read once the digits have been read. -/
theorem decimal?_eq (hm : mantissa false {} cs = (m, tail)) (hdigit : m.hasDigit = true)
    (hcs : '_' ∉ cs) (htail : Power tail e) :
    numeral?.decimal? cs = some (Number.ofDecimal m.value (e - m.places)) := by
  have hfit : underscoresFit false .start cs = true := underscoresFit_of_not_mem hcs (by simp)
  simp only [numeral?.decimal?, hm, hdigit, hfit, Bool.not_true, Bool.or_self, Bool.false_eq_true,
    if_false]
  cases htail with
  | none => simp
  | positive hne hds hlt => simp [exponent?_power (.positive hne hds hlt)]
  | negative hne hds hlt => simp [exponent?_power (.negative hne hds hlt)]

theorem numeral?_eq_decimal? (h : ∀ c ∈ cs, NumeralChar c) :
    numeral? cs = numeral?.decimal? cs := by
  rw [numeral?.eq_def]
  split
  · next x _ _ =>
    obtain ⟨-, hx, hX⟩ := (h x (by simp)).ne
    simp [hx, hX]
  · rfl

/-- A numeral is read as the number nearest to its decimal. -/
theorem Numeral.read (h : Numeral cs d) : numeral? cs = some d.toNumber := by
  have hcs : '_' ∉ cs := fun hmem => (h.chars _ hmem).ne.1 rfl
  rw [numeral?_eq_decimal? h.chars]
  cases h with
  | whole hne hds htail =>
    rw [decimal?_eq ((mantissa_digits {} hds _).trans (mantissa_power _ htail)) (by simp [hne]) hcs
      htail]
    simp [Decimal.toNumber]
  | @fraction ds fs tail e hne hds hfs htail =>
    have hpoint : mantissa false {} (ds ++ '.' :: (fs ++ tail)) =
        (⟨Nat.ofDigitChars 10 (ds ++ fs) 0, fs.length, true, true⟩, tail) := by
      rw [mantissa_digits {} hds, mantissa]
      simp only [Char.reduceBEq, beq_self_eq_true, Bool.false_eq_true, if_true, if_false]
      rw [mantissa_digits _ hfs, mantissa_power _ htail]
      simp [hne, Nat.ofDigitChars_append]
    rw [decimal?_eq hpoint rfl hcs htail, Decimal.toNumber]

end Reading

/-! ## Layouts -/

namespace Layout

open Reading

variable {d : Decimal}

theorem isDigit_digits (d : Decimal) : ∀ c ∈ d.digits, c.isDigit = true :=
  fun _ hc => Nat.isDigit_of_mem_toDigits (by decide) (by decide) hc

theorem isDigit_zeros (k : Nat) {ds : List Char} (hds : ∀ c ∈ ds, c.isDigit = true) :
    ∀ c ∈ List.replicate k '0' ++ ds, c.isDigit = true := by
  refine List.forall_mem_append.mpr ⟨fun c hc => ?_, hds⟩
  rw [List.eq_of_mem_replicate hc]
  decide

theorem ofDigitChars_zeros (k n : Nat) :
    Nat.ofDigitChars 10 (List.replicate k '0' ++ Nat.toDigits 10 n) 0 = n := by
  rw [Nat.ofDigitChars_append, Nat.ofDigitChars_replicate_zero, Nat.mul_zero,
    Nat.ofDigitChars_ten_toDigits]

/-- Digits with all places are a numeral without a power. -/
theorem numeral_positional (d : Decimal) :
    ∃ d', Numeral (positional d) d' ∧ d'.worth = d.worth := by
  have hne : d.digits ≠ [] := Nat.toDigits_ne_nil
  simp only [positional]
  split
  · next he =>
    obtain ⟨k, hk⟩ := Int.eq_ofNat_of_zero_le he
    have hzeros : ∀ c ∈ List.replicate k '0', c.isDigit = true :=
      fun c hc => List.eq_of_mem_replicate hc ▸ rfl
    have hne' : d.digits ++ List.replicate k '0' ≠ [] := by simp [hne]
    have hnumeral :=
      Numeral.whole hne' (List.forall_mem_append.mpr ⟨isDigit_digits d, hzeros⟩) .none
    rw [List.append_nil] at hnumeral
    refine ⟨_, by rwa [hk, Int.toNat_natCast], ?_⟩
    rw [Decimal.worth, Decimal.worth, Nat.ofDigitChars_append, Nat.ofDigitChars_replicate_zero,
      Decimal.digits, Nat.ofDigitChars_ten_toDigits, hk]
    push_cast
    rw [zpow_natCast]
    ring
  · next he =>
    obtain ⟨places, hplaces⟩ : ∃ places, places = (-d.exponent).toNat := ⟨_, rfl⟩
    obtain ⟨padded, hpadded⟩ : ∃ padded, padded =
      List.replicate (places + 1 - d.digits.length) '0' ++ d.digits := ⟨_, rfl⟩
    have hlen : places < padded.length := by
      rw [hpadded, List.length_append, List.length_replicate]
      omega
    have hdigits : ∀ c ∈ padded, c.isDigit = true := hpadded ▸ isDigit_zeros _ (isDigit_digits d)
    have hvalue : Nat.ofDigitChars 10 padded 0 = d.significand := hpadded ▸ ofDigitChars_zeros _ _
    have hwhole : padded.take (padded.length - places) ≠ [] :=
      List.ne_nil_of_length_pos (by rw [List.length_take]; omega)
    have hbehind : ∀ c ∈ padded.drop (padded.length - places), c.isDigit = true :=
      fun c hc => hdigits c (List.mem_of_mem_drop hc)
    have hnumeral := Numeral.fraction hwhole (fun c hc => hdigits c (List.mem_of_mem_take hc))
      hbehind .none
    rw [List.append_nil, List.take_append_drop, hvalue] at hnumeral
    rw [← hplaces, ← hpadded]
    refine ⟨_, hnumeral, ?_⟩
    have hexp : 0 - ((padded.drop (padded.length - places)).length : ℤ) = d.exponent := by
      rw [List.length_drop]
      omega
    rw [Decimal.worth, Decimal.worth, hexp]

/-- The power behind the letter has at least two digits. -/
theorem power_scientific {e : Int} (h : e.natAbs < 10000) (k : Nat) :
    Power ('e' :: (if e < 0 then '-' else '+') ::
      (List.replicate k '0' ++ Nat.toDigits 10 e.natAbs)) e := by
  have hne : List.replicate k '0' ++ Nat.toDigits 10 e.natAbs ≠ [] := by
    simp [Nat.toDigits_ne_nil]
  have hds : ∀ c ∈ List.replicate k '0' ++ Nat.toDigits 10 e.natAbs, c.isDigit = true :=
    isDigit_zeros k fun c hc => Nat.isDigit_of_mem_toDigits (by decide) (by decide) hc
  have hvalue := ofDigitChars_zeros k e.natAbs
  split
  · have hpower := Power.negative hne hds (by rwa [hvalue])
    rw [hvalue] at hpower
    convert hpower using 1
    omega
  · have hpower := Power.positive hne hds (by rwa [hvalue])
    rw [hvalue] at hpower
    convert hpower using 1
    omega

/-- One digit in front of the point, and a power. -/
theorem numeral_scientific (h : d.leading.natAbs < 10000) : Numeral (scientific d) d := by
  have hvalue : Nat.ofDigitChars 10 d.digits 0 = d.significand := Nat.ofDigitChars_ten_toDigits
  have hdigits := isDigit_digits d
  have hpower := power_scientific h (2 - (Nat.toDigits 10 d.leading.natAbs).length)
  obtain ⟨c, cs, hcs⟩ := List.exists_cons_of_ne_nil
    (show d.digits ≠ [] from Nat.toDigits_ne_nil)
  have hlen : d.leading = d.exponent + cs.length := by
    rw [Decimal.leading, hcs, List.length_cons]
    omega
  rw [hcs] at hvalue hdigits
  simp only [scientific, hcs]
  cases cs with
  | nil =>
    have hd : (⟨Nat.ofDigitChars 10 [c] 0, d.leading⟩ : Decimal) = d := by
      rw [hvalue, hlen]
      simp
    have hnumeral := Numeral.whole (by simp) hdigits hpower
    rwa [hd] at hnumeral
  | cons c' cs =>
    have hd : (⟨Nat.ofDigitChars 10 ([c] ++ c' :: cs) 0, d.leading - (c' :: cs).length⟩ : Decimal) =
        d := by
      rw [List.singleton_append, hvalue, hlen, add_sub_cancel_right]
    obtain ⟨hc, hfs⟩ := List.forall_mem_cons.mp hdigits
    have hnumeral := Numeral.fraction (List.cons_ne_nil c [])
      (fun b hb => (List.mem_singleton.mp hb).symm ▸ hc) hfs hpower
    rwa [hd] at hnumeral

/-- A layout writes a numeral of the same worth. -/
theorem numeral_write (l : Layout) (h : d.leading.natAbs < 10000) :
    ∃ d', Numeral (l.write d) d' ∧ d'.worth = d.worth := by
  rw [write]
  split
  · exact numeral_positional d
  · exact ⟨d, numeral_scientific h, rfl⟩

end Layout

/-! ## Texts -/

namespace Number

open Reading

variable {x y : Number}

/-- The number that a text gives back: all that are none are one. -/
def canonical (x : Number) : Number := if x.isNaN then nan else x

/-! ### Signs -/

/-- The sign is the bit that is flipped, and the only one. -/
theorem neg_of_number (h : x.isNaN = false) :
    x.neg.magnitude = x.magnitude ∧ x.neg.isNegative = !x.isNegative := by
  have hneg : x.neg.bits.toNat = x.bits.toNat ^^^ 2 ^ 63 := by
    rw [neg, h, if_neg (by simp), UInt64.toNat_xor]
    rfl
  have hmod : x.neg.bits.toNat % 2 ^ 63 = x.bits.toNat % 2 ^ 63 := by
    rw [hneg, Nat.xor_mod_two_pow, Nat.mod_self, Nat.xor_zero]
  have hdiv : x.neg.bits.toNat / 2 ^ 63 = x.bits.toNat / 2 ^ 63 ^^^ 1 := by
    rw [hneg, Nat.xor_div_two_pow, Nat.div_self (Nat.two_pow_pos 63)]
  refine ⟨hmod, ?_⟩
  have hlt := x.bits.toNat_lt
  simp only [isNegative, Nat.pow_eq]
  rcases (by omega : x.bits.toNat / 2 ^ 63 = 0 ∨ x.bits.toNat / 2 ^ 63 = 1) with hbit | hbit
  · rw [hbit] at hdiv
    have hdiv : x.neg.bits.toNat / 2 ^ 63 = 1 := hdiv
    rw [decide_eq_true (by omega), decide_eq_false (by omega), Bool.not_false]
  · rw [hbit] at hdiv
    have hdiv : x.neg.bits.toNat / 2 ^ 63 = 0 := hdiv
    have hle : 2 ^ 63 ≤ x.bits.toNat := by omega
    rw [decide_eq_true hle, decide_eq_false (by omega), Bool.not_true]

theorem isNaN_neg (h : x.isNaN = false) : x.neg.isNaN = false := by
  rwa [isNaN, (neg_of_number h).1]

theorem neg_neg (h : x.isNaN = false) : x.neg.neg = x := by
  rw [neg, isNaN_neg h, neg, h]
  simp only [Bool.false_eq_true, if_false, UInt64.xor_assoc, UInt64.xor_self, UInt64.xor_zero]

/-- The number without its sign. -/
theorem unsigned_of_number (h : x.isNaN = false) :
    (x.withSignOf zero).isNegative = false ∧ (x.withSignOf zero).magnitude = x.magnitude ∧
      (if x.isNegative then (x.withSignOf zero).neg else x.withSignOf zero) = x := by
  have hzero : zero.isNegative = false := by decide
  rw [withSignOf, hzero]
  cases hsign : x.isNegative with
  | false => simp [hsign]
  | true =>
    obtain ⟨hmagnitude, hneg⟩ := neg_of_number h
    simp [hmagnitude, hneg, hsign, neg_neg h]

/-! ### Reading back -/

theorem isNaN_of_le (h : x.magnitude ≤ infinity.magnitude) : x.isNaN = false :=
  decide_eq_false (not_lt.mpr h)

/-- What is no number has a word for its text, and so have the infinities. -/
theorem text_cases (x : Number) : (x.isNaN = true ∧ x.text = "NaN") ∨
    (x.magnitude = infinity.magnitude ∧ x.text = if x.isNegative then "-Inf" else "+Inf") ∨
    x.magnitude < infinity.magnitude := by
  rcases lt_trichotomy infinity.magnitude x.magnitude with hlt | heq | hlt
  · have hnan : x.isNaN = true := decide_eq_true hlt
    exact Or.inl ⟨hnan, if_pos hnan⟩
  · have hnan : x.isNaN = false := isNaN_of_le heq.ge
    have hinfinite : x.isInfinite = true := beq_iff_eq.mpr heq.symm
    exact Or.inr (Or.inl ⟨heq.symm, by simp [text, Layout.format, hnan, hinfinite]⟩)
  · exact Or.inr (Or.inr hlt)

/-- The text of a finite number: its sign, and a numeral that is read as the number without its
sign. -/
theorem text_of_finite (h : x.magnitude < infinity.magnitude) : ∃ cs d, Numeral cs d ∧
    d.toNumber = x.withSignOf zero ∧
      x.text = String.ofList (if x.isNegative then '-' :: cs else cs) := by
  have hnan : x.isNaN = false := isNaN_of_le h.le
  have hinfinite : x.isInfinite = false := beq_eq_false_iff_ne.mpr (by omega)
  obtain ⟨hunsigned, hmagnitude, -⟩ := unsigned_of_number hnan
  simp only [text, Layout.format, hnan, hinfinite, Bool.false_eq_true, if_false]
  cases hzero : x.isZero with
  | true =>
    have heq : x.withSignOf zero = zero := by
      rw [eq_ofMagnitude hunsigned, hmagnitude, beq_iff_eq.mp hzero]
      rfl
    have hnumeral := Numeral.whole (List.cons_ne_nil '0' []) (by simp) .none
    refine ⟨['0'], ⟨0, 0⟩, hnumeral, ?_, by simp⟩
    rw [heq]
    rfl
  | false =>
    have hpos : (x.withSignOf zero).Positive := ⟨hunsigned, by rwa [isZero, hmagnitude],
      by rwa [hmagnitude]⟩
    obtain ⟨d, hd, hworth⟩ := Layout.numeral_write .value hpos.leading_shortest
    refine ⟨_, d, hd, ?_, by simp⟩
    rw [Decimal.toNumber_congr hworth, hpos.toNumber_shortest]

theorem toLower_of_isDigit {c : Char} (h : c.isDigit = true) : c.toLower = c := by
  obtain ⟨-, hhigh⟩ := Text.toNat_of_isDigit h
  have hlt : ¬ (65 ≤ c.toNat ∧ c.toNat ≤ 90) := by omega
  exact dif_neg hlt

/-- A numeral is neither of the words. -/
theorem not_word_of_digit {c : Char} (h : c.isDigit = true) (cs : List Char) :
    lower (c :: cs) ≠ "nan".toList ∧ isInfinityWord (c :: cs) = false := by
  have hn : c ≠ 'n' := ne_of_isDigit h (by decide)
  have hi : c ≠ 'i' := ne_of_isDigit h (by decide)
  simp [lower, isInfinityWord, toLower_of_isDigit h, hn, hi]

/-- A numeral with or without a sign is read as its number with that sign. -/
theorem parse_numeral {cs : List Char} {d : Decimal} (h : Numeral cs d) (negative : Bool)
    (hfinite : d.toNumber.isInfinite = false) :
    parse (String.ofList (if negative then '-' :: cs else cs)) =
      .ok (if negative then d.toNumber.neg else d.toNumber) := by
  obtain ⟨c, rest, rfl, hc⟩ := h.head
  obtain ⟨hnan, hinfinity⟩ := not_word_of_digit hc rest
  cases negative with
  | true =>
    have hnan' : lower ('-' :: c :: rest) ≠ "nan".toList := by simp [lower]
    simp at hnan'
    simp [parse, hnan', hinfinity, h.read, hfinite]
  | false =>
    have hplus : c ≠ '+' := ne_of_isDigit hc (by decide)
    have hminus : c ≠ '-' := ne_of_isDigit hc (by decide)
    simp at hnan
    simp [parse, hnan, hinfinity, h.read, hfinite, hplus, hminus]

/-- Every number is read again from its text. -/
theorem parse_text (x : Number) : parse x.text = .ok x.canonical := by
  rcases x.text_cases with ⟨hnan, htext⟩ | ⟨heq, htext⟩ | hlt
  · rw [htext, canonical, if_pos hnan]
    decide +kernel
  · obtain ⟨hunsigned, hmagnitude, hsigned⟩ := unsigned_of_number (isNaN_of_le heq.le)
    have hinfinity : x.withSignOf zero = infinity := by
      rw [eq_ofMagnitude hunsigned, hmagnitude, heq]
      rfl
    have hparse : ∀ b : Bool, parse (if b then "-Inf" else "+Inf") =
        .ok (if b then infinity.neg else infinity) := by decide +kernel
    rw [htext, hparse, ← hinfinity, hsigned, canonical, isNaN_of_le heq.le, if_neg (by simp)]
  · obtain ⟨-, hmagnitude, hsigned⟩ := unsigned_of_number (isNaN_of_le hlt.le)
    obtain ⟨cs, d, hcs, hd, htext⟩ := text_of_finite hlt
    have hfinite : d.toNumber.isInfinite = false := by
      rw [hd, isInfinite, hmagnitude]
      exact beq_eq_false_iff_ne.mpr hlt.ne
    rw [htext, parse_numeral hcs _ hfinite, hd, hsigned, canonical, isNaN_of_le hlt.le,
      if_neg (by simp)]

/-- Numbers with the same text are the same number, or both none. -/
theorem text_inj (h : x.text = y.text) : x.canonical = y.canonical := by
  have hparse := y.parse_text
  rw [← h, x.parse_text] at hparse
  exact Except.ok.inj hparse

theorem text_canonical (x : Number) : x.canonical.text = x.text := by
  rw [canonical]
  split
  · next h =>
    rw [text, text, Layout.format, Layout.format, if_pos h, if_pos (by decide)]
  · rfl

/-- The characters of numbers. -/
def TextChar (c : Char) : Prop :=
  NumeralChar c ∨ c = 'I' ∨ c = 'n' ∨ c = 'f' ∨ c = 'N' ∨ c = 'a'

instance (c : Char) : Decidable (TextChar c) := inferInstanceAs (Decidable (_ ∨ _))

/-- The text of a number has digits, signs, points, the letter `e` and the letters of the words. -/
theorem mem_text {c : Char} (h : c ∈ x.text.toList) : TextChar c := by
  rcases x.text_cases with ⟨-, htext⟩ | ⟨-, htext⟩ | hlt
  · rw [htext] at h
    simp at h
    rcases h with rfl | rfl | rfl <;> simp [TextChar]
  · rw [htext] at h
    split at h <;> simp at h <;> rcases h with rfl | rfl | rfl | rfl <;>
      simp [TextChar, NumeralChar]
  · obtain ⟨cs, d, hcs, -, htext⟩ := text_of_finite hlt
    rw [htext, String.toList_ofList] at h
    left
    split at h
    · rcases List.mem_cons.mp h with rfl | h
      · simp [NumeralChar]
      · exact hcs.chars c h
    · exact hcs.chars c h

end Number

end AddressCode
