import AddressCode.Lexer.Pattern
import Mathlib.Computability.Language

/-!
# AddressCode.Proofs.Derivatives — what a pattern describes

`Pattern.language` is the set of byte strings that a pattern describes, made from union,
concatenation and iteration of languages.  A pattern is nullable if the empty string is in its
language, and its derivative by a byte describes what may follow that byte (`mem_derive`), also
after simplification.

So a string can be tried one byte at a time: `Pattern.accepts` takes one derivative after the other
and asks in the end for the empty string, and `accepts_iff` says that it decides the language.
-/

namespace AddressCode

open scoped Computability

/-! ## Languages -/

section Language

variable {l m : Language UInt8} {b : UInt8} {s : List UInt8}

theorem nil_mem_mul : [] ∈ l * m ↔ [] ∈ l ∧ [] ∈ m := by
  rw [Language.mem_mul]
  constructor
  · rintro ⟨u, hu, v, hv, huv⟩
    obtain ⟨rfl, rfl⟩ := List.append_eq_nil_iff.mp huv
    exact ⟨hu, hv⟩
  · rintro ⟨hl, hm⟩
    exact ⟨[], hl, [], hm, rfl⟩

/-- The first byte of a concatenation is in the first part, unless that is empty. -/
theorem cons_mem_mul : b :: s ∈ l * m ↔
    (∃ u v, s = u ++ v ∧ b :: u ∈ l ∧ v ∈ m) ∨ ([] ∈ l ∧ b :: s ∈ m) := by
  rw [Language.mem_mul]
  constructor
  · rintro ⟨u, hu, v, hv, huv⟩
    cases u with
    | nil => exact Or.inr ⟨hu, by rwa [← huv]⟩
    | cons c u =>
      obtain ⟨rfl, rfl⟩ := List.cons.inj huv
      exact Or.inl ⟨u, v, rfl, hu, hv⟩
  · rintro (⟨u, v, rfl, hu, hv⟩ | ⟨hl, hm⟩)
    · exact ⟨b :: u, hu, v, hv, rfl⟩
    · exact ⟨[], hl, b :: s, hm, rfl⟩

/-- The first byte of an iteration is in a part that is not empty. -/
theorem cons_mem_kstar : b :: s ∈ l∗ ↔ ∃ u v, s = u ++ v ∧ b :: u ∈ l ∧ v ∈ l∗ := by
  constructor
  · intro h
    obtain ⟨parts, hs, hparts⟩ := Language.mem_kstar_iff_exists_nonempty.mp h
    cases parts with
    | nil => cases hs
    | cons p parts =>
      obtain ⟨hp, hne⟩ := hparts p (by simp)
      obtain ⟨c, u, rfl⟩ := List.exists_cons_of_ne_nil hne
      obtain ⟨rfl, rfl⟩ := List.cons.inj hs
      refine ⟨u, parts.flatten, rfl, hp, Language.join_mem_kstar ?_⟩
      exact fun q hq => (hparts q (by simp [hq])).1
  · rintro ⟨u, v, rfl, hu, hv⟩
    obtain ⟨parts, rfl, hparts⟩ := Language.mem_kstar.mp hv
    refine Language.mem_kstar.mpr ⟨(b :: u) :: parts, rfl, ?_⟩
    intro q hq
    rcases List.mem_cons.mp hq with rfl | hq
    · exact hu
    · exact hparts q hq

end Language

namespace Pattern

variable {p q : Pattern} {b : UInt8} {s : List UInt8}

/-- The byte strings that a pattern describes. -/
def language : Pattern → Language UInt8
  | never => 0
  | empty => 1
  | range lo hi => {s | ∃ b, s = [b] ∧ lo ≤ b ∧ b ≤ hi}
  | seq p q => p.language * q.language
  | alt p q => p.language + q.language
  | star p => p.language∗

theorem mem_range {lo hi : UInt8} :
    s ∈ (range lo hi).language ↔ ∃ b, s = [b] ∧ lo ≤ b ∧ b ≤ hi := Iff.rfl

/-! ## Derivatives -/

theorem nullable_iff (p : Pattern) : p.nullable = true ↔ [] ∈ p.language := by
  induction p with
  | never => simp [nullable, language]
  | empty => simp [nullable, language]
  | range lo hi => simp [nullable, mem_range]
  | seq p q hp hq => simp [nullable, language, nil_mem_mul, hp, hq]
  | alt p q hp hq => rw [nullable, Bool.or_eq_true, hp, hq, language, Language.mem_add]
  | star p => simp [nullable, language, Language.nil_mem_kstar]

/-- Simplifying a sequence does not change what it describes. -/
theorem language_mkSeq (p q : Pattern) : (mkSeq p q).language = p.language * q.language := by
  unfold mkSeq
  split
  · rename_i h
    rcases h with rfl | rfl <;> simp [language]
  · split
    · rename_i h
      simp [h, language]
    · split
      · rename_i h
        simp [h, language]
      · rfl

/-- Nor does simplifying a choice. -/
theorem language_mkAlt (p q : Pattern) : (mkAlt p q).language = p.language + q.language := by
  unfold mkAlt
  split
  · rename_i h
    simp [h, language]
  · split
    · rename_i h
      rcases h with rfl | rfl <;> simp [language]
    · rfl

/-- The derivative by a byte describes what may follow that byte. -/
theorem mem_derive (p : Pattern) (b : UInt8) (s : List UInt8) :
    s ∈ (p.derive b).language ↔ b :: s ∈ p.language := by
  induction p generalizing s with
  | never => simp [derive, language]
  | empty => simp [derive, language]
  | range lo hi =>
    rw [mem_range]
    unfold derive
    split
    · rename_i h
      simp [language, h]
    · rename_i h
      simp only [language, Language.notMem_zero, false_iff]
      rintro ⟨c, hc, hrange⟩
      obtain ⟨rfl, -⟩ := List.cons.inj hc
      exact h hrange
  | seq p q hp hq =>
    have hmul : s ∈ (p.derive b).language * q.language ↔
        ∃ u v, s = u ++ v ∧ b :: u ∈ p.language ∧ v ∈ q.language := by
      rw [Language.mem_mul]
      constructor
      · rintro ⟨u, hu, v, hv, rfl⟩
        exact ⟨u, v, rfl, (hp u).mp hu, hv⟩
      · rintro ⟨u, v, rfl, hu, hv⟩
        exact ⟨u, (hp u).mpr hu, v, hv, rfl⟩
    -- the byte may come from the second part if the first one can be empty
    have hnull := p.nullable_iff
    rw [derive, language, cons_mem_mul]
    split
    · rename_i h
      rw [language_mkAlt, Language.mem_add, language_mkSeq, hmul, hq]
      simp [hnull.mp h]
    · rename_i h
      have hne : [] ∉ p.language := fun hmem => h (hnull.mpr hmem)
      rw [language_mkSeq, hmul]
      simp [hne]
  | alt p q hp hq =>
    rw [derive, language_mkAlt, Language.mem_add, hp, hq, language, Language.mem_add]
  | star p hp =>
    simp only [derive, language_mkSeq, language, cons_mem_kstar, Language.mem_mul]
    constructor
    · rintro ⟨u, hu, v, hv, rfl⟩
      exact ⟨u, v, rfl, (hp u).mp hu, hv⟩
    · rintro ⟨u, v, rfl, hu, hv⟩
      exact ⟨u, (hp u).mpr hu, v, hv, rfl⟩

/-! ## Trying a string -/

/-- Does a pattern describe a string?  Its bytes are tried one after the other. -/
def accepts (p : Pattern) : List UInt8 → Bool
  | [] => p.nullable
  | b :: s => (p.derive b).accepts s

theorem accepts_iff (p : Pattern) (s : List UInt8) : p.accepts s = true ↔ s ∈ p.language := by
  induction s generalizing p with
  | nil => exact p.nullable_iff
  | cons b s ih => rw [accepts, ih, mem_derive]

theorem accepts_never (s : List UInt8) : never.accepts s = false := by
  induction s with
  | nil => rfl
  | cons b s ih => exact ih

end Pattern

end AddressCode
