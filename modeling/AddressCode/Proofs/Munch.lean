import AddressCode.Lexer.Scan
import AddressCode.Proofs.Derivatives

/-!
# AddressCode.Proofs.Munch — a scan takes the longest match

`Takes P text c s rest` says that `s` is the longest beginning of a text that is a piece of some
class, where `P` says which strings are pieces of which class.  `Cuts P text ps` says that taking
one piece after the other in this way uses up the text and gives the pieces `ps`.

The pieces of a lexer are the strings that a rule describes, and the class of a piece is what the
first such rule makes of it (`Lexer.Piece`).  A scan tries all rules together, one byte after the
other; `munch_cases` says that it finds the longest match if there is one.  So it leaves no gap if
and only if the text can be cut (`gaps_eq_nil_iff`), and then it delivers the pieces that are not
dropped, each at its place (`tokens_of_cuts`).
-/

namespace AddressCode

/-! ## Maximal munch -/

namespace MaxMunch

variable {κ : Type} {P : κ → List UInt8 → Prop} {text s s' rest rest' : List UInt8} {c c' : κ}
  {ps qs : List (κ × List UInt8)}

/-- The longest beginning of a text that is a piece is `s`, of the class `c`, and `rest` follows. -/
structure Takes (P : κ → List UInt8 → Prop) (text : List UInt8) (c : κ) (s rest : List UInt8) :
    Prop where
  split : text = s ++ rest
  ne_nil : s ≠ []
  piece : P c s
  longest : ∀ {c' u v}, P c' u → text = u ++ v → u.length ≤ s.length

/-- Taking the longest piece again and again uses up a text, and gives the pieces `ps`. -/
inductive Cuts (P : κ → List UInt8 → Prop) : List UInt8 → List (κ × List UInt8) → Prop where
  | nil : Cuts P [] []
  | cons {text : List UInt8} {c : κ} {s rest : List UInt8} {ps : List (κ × List UInt8)}
      (h : Takes P text c s rest) (hrest : Cuts P rest ps) : Cuts P text ((c, s) :: ps)

/-- The bytes of some pieces, one after the other. -/
def joined (ps : List (κ × List UInt8)) : List UInt8 := (ps.map (·.2)).flatten

@[simp]
theorem joined_nil : joined ([] : List (κ × List UInt8)) = [] := rfl

@[simp]
theorem joined_cons (c : κ) (s : List UInt8) (ps : List (κ × List UInt8)) :
    joined ((c, s) :: ps) = s ++ joined ps := rfl

@[simp]
theorem joined_append (ps qs : List (κ × List UInt8)) :
    joined (ps ++ qs) = joined ps ++ joined qs := by
  simp [joined]

/-- There is one longest piece. -/
theorem Takes.unique (h : Takes P text c s rest) (h' : Takes P text c' s' rest') :
    s = s' ∧ rest = rest' := by
  have hlen : s.length = s'.length :=
    Nat.le_antisymm (h'.longest h.piece h.split) (h.longest h'.piece h'.split)
  exact List.append_inj (h.split.symm.trans h'.split) hlen

/-- The pieces are the text. -/
theorem Cuts.joined_eq (h : Cuts P text ps) : joined ps = text := by
  induction h with
  | nil => rfl
  | cons h _ ih => rw [joined_cons, ih, h.split]

theorem Cuts.pieces (h : Cuts P text ps) : ∀ p ∈ ps, P p.1 p.2 ∧ p.2 ≠ [] := by
  induction h with
  | nil => simp
  | @cons _ c s _ _ h _ ih =>
    intro p hp
    rcases List.mem_cons.mp hp with rfl | hp
    · exact ⟨h.piece, h.ne_nil⟩
    · exact ih p hp

theorem Cuts.takes (h : Cuts P text ((c, s) :: ps)) : Takes P text c s (joined ps) := by
  cases h with
  | cons h hrest => rwa [hrest.joined_eq]

theorem Cuts.single (h : P c s) (hne : s ≠ []) : Cuts P s [(c, s)] := by
  have htakes : Takes P s c s [] := by
    refine ⟨(List.append_nil s).symm, hne, h, ?_⟩
    intro c' u v _ huv
    rw [huv, List.length_append]
    exact Nat.le_add_right _ _
  exact .cons htakes .nil

/-- Behind some of the pieces, the text is cut into the others. -/
theorem Cuts.of_append (h : Cuts P text (ps ++ qs)) :
    text = joined ps ++ joined qs ∧ Cuts P (joined qs) qs := by
  induction ps generalizing text with
  | nil =>
    have htext := h.joined_eq
    rw [List.nil_append] at htext h
    exact ⟨htext.symm, htext ▸ h⟩
  | cons p ps ih =>
    cases h with
    | cons h hrest =>
      obtain ⟨hsplit, hcuts⟩ := ih hrest
      refine ⟨?_, hcuts⟩
      rw [h.split, hsplit, joined_cons, List.append_assoc]

/-! ### Texts one after the other -/

/-- A longest piece is one also in front of less. -/
theorem Takes.of_append {u : List UInt8} (h : Takes P (s ++ (rest ++ u)) c s (rest ++ u)) :
    Takes P (s ++ rest) c s rest := by
  refine ⟨rfl, h.ne_nil, h.piece, ?_⟩
  intro c' w v hw hwv
  refine h.longest (v := v ++ u) hw ?_
  rw [← List.append_assoc, hwv, List.append_assoc]

/-- No piece holds the two bytes side by side. -/
def Apart (P : κ → List UInt8 → Prop) (x y : UInt8) : Prop :=
  ∀ c u v, ¬ P c (u ++ x :: y :: v)

/-- A longest piece is one also in front of more, if no piece reaches across. -/
theorem Takes.append {u : List UInt8} (h : Takes P text c s rest)
    (hapart : ∀ x ∈ text.getLast?, ∀ y ∈ u.head?, Apart P x y) :
    Takes P (text ++ u) c s (rest ++ u) := by
  refine ⟨by rw [h.split, List.append_assoc], h.ne_nil, h.piece, ?_⟩
  intro c' w v hw hwv
  rcases List.append_eq_append_iff.mp hwv with ⟨more, rfl, hu⟩ | ⟨less, htext, -⟩
  · cases more with
    | nil => exact h.longest (v := []) (by simpa using hw) (by simp)
    | cons y more =>
      have hne : text ≠ [] := by
        rw [h.split]
        exact List.append_ne_nil_of_left_ne_nil h.ne_nil rest
      obtain ⟨init, x, rfl⟩ := List.eq_nil_or_concat' text |>.resolve_left hne
      rw [List.append_assoc, List.singleton_append] at hw
      exact absurd hw (hapart x (by simp) y (by simp [hu]) c' init more)
  · exact h.longest hw htext

/-- Texts that are cut one after the other are cut together, if no piece reaches across. -/
theorem Cuts.append {u : List UInt8} (h : Cuts P text ps) (h' : Cuts P u qs)
    (hapart : ∀ x ∈ text.getLast?, ∀ y ∈ u.head?, Apart P x y) :
    Cuts P (text ++ u) (ps ++ qs) := by
  induction h with
  | nil => exact h'
  | @cons text c s rest ps h _ ih =>
    refine .cons (h.append hapart) (ih ?_)
    intro x hx
    have hne : rest ≠ [] := by
      rintro rfl
      cases hx
    refine hapart x ?_
    rw [h.split, List.getLast?_append_of_ne_nil s hne]
    exact hx

end MaxMunch

namespace Lexer

open MaxMunch

variable {τ : Type} {rules live : List (Rule τ)} {text s rest : List UInt8} {a : Action τ}

/-! ## The longest match -/

/-- What the first rule that describes a string makes of it. -/
def first? (rules : List (Rule τ)) (s : List UInt8) : Option (Action τ) :=
  (rules.find? (·.pattern.accepts s)).map (·.action)

/-- The pieces of a lexer, with what becomes of them. -/
def Piece (rules : List (Rule τ)) (a : Action τ) (s : List UInt8) : Prop := first? rules s = some a

/-- The rules that are left behind a byte describe what may follow it. -/
theorem first?_advance (b : UInt8) (rules : List (Rule τ)) (s : List UInt8) :
    first? (advance b rules) s = first? rules (b :: s) := by
  induction rules with
  | nil => rfl
  | cons r rules ih =>
    have hadvance : advance b (r :: rules) =
        if r.pattern.derive b = .never then advance b rules
        else { r with pattern := r.pattern.derive b } :: advance b rules := by
      by_cases h : r.pattern.derive b = .never <;> simp [advance, h]
    unfold first? at ih ⊢
    rw [hadvance, List.find?_cons, Pattern.accepts]
    split
    · -- a rule that has run out describes nothing
      rename_i h
      rw [h, Pattern.accepts_never]
      exact ih
    · rw [List.find?_cons]
      dsimp only
      cases (r.pattern.derive b).accepts s
      · exact ih
      · rfl

theorem first?_nil (s : List UInt8) : first? ([] : List (Rule τ)) s = none := rfl

/-- What is found of the rules `live` in the beginning of a text: the longest match with its length,
or nothing. -/
inductive Found (live : List (Rule τ)) (text : List UInt8) : Option (Action τ × Nat) → Prop where
  | longest {a : Action τ} {s rest : List UInt8} (h : Takes (Piece live) text a s rest) :
      Found live text (some (a, s.length))
  | nothing (h : ∀ {u v}, text = u ++ v → u ≠ [] → first? live u = none) : Found live text none

/-- What is found behind the first byte decides what is found, together with what ends there. -/
theorem found_cons {b : UInt8} {found : Option (Action τ × Nat)}
    (h : Found (advance b live) rest found) :
    Found live (b :: rest)
      ((found.map fun f => (f.1, f.2 + 1)).or
        ((first? (advance b live) []).map fun a => (a, 1))) := by
  cases h with
  | @longest a s v h =>
    have htakes : Takes (Piece live) (b :: rest) a (b :: s) v := by
      refine ⟨by rw [h.split]; rfl, by simp, ?_, ?_⟩
      · rw [Piece, ← first?_advance]
        exact h.piece
      · intro c' u w hu huw
        cases u with
        | nil => simp
        | cons b' u =>
          obtain ⟨rfl, hrest⟩ := List.cons.inj huw
          rw [Piece, ← first?_advance] at hu
          exact Nat.succ_le_succ (h.longest hu hrest)
    exact .longest htakes
  | nothing h =>
    have hlonger : ∀ {u v}, b :: rest = u ++ v → 1 < u.length → first? live u = none := by
      intro u v huv hlen
      obtain _ | ⟨b', _ | ⟨b'', u⟩⟩ := u
      · simp at hlen
      · simp at hlen
      · obtain ⟨rfl, hrest⟩ := List.cons.inj huv
        rw [← first?_advance]
        exact h hrest (by simp)
    -- is the first byte alone a match?
    cases hone : first? (advance b live) [] with
    | none =>
      refine .nothing fun {u v} huv hu => ?_
      obtain _ | ⟨b', _ | ⟨b'', u⟩⟩ := u
      · exact absurd rfl hu
      · obtain ⟨rfl, -⟩ := List.cons.inj huv
        rw [← first?_advance]
        exact hone
      · exact hlonger huv (by simp)
    | some a =>
      have htakes : Takes (Piece live) (b :: rest) a [b] rest := by
        refine ⟨rfl, by simp, ?_, ?_⟩
        · rw [Piece, ← first?_advance]
          exact hone
        · intro c' u w hu huw
          by_contra hlen
          have hnone := hlonger huw (by simpa using hlen)
          rw [Piece, hnone] at hu
          cases hu
      exact .longest htakes

/-- Matching on finds the longest match, and keeps the best match so far if there is none. -/
theorem munchFrom_found (live : List (Rule τ)) (n : Nat) (best : Option (Action τ × Nat))
    (text : List UInt8) :
    ∃ found m, Found live text found ∧
      munchFrom live n best text =
        .ofBest ((found.map fun f => (f.1, n + f.2)).or best) m := by
  induction text generalizing live n best with
  | nil =>
    refine ⟨none, n, .nothing fun {u v} huv hu => ?_, rfl⟩
    exact absurd (List.append_eq_nil_iff.mp huv.symm).1 hu
  | cons b rest ih =>
    simp only [munchFrom]
    split
    · rename_i hempty
      have hnil : advance b live = [] := List.isEmpty_iff.mp hempty
      refine ⟨none, n + 1, .nothing fun {u v} huv hu => ?_, rfl⟩
      obtain ⟨b', u, rfl⟩ := List.exists_cons_of_ne_nil hu
      obtain ⟨rfl, -⟩ := List.cons.inj huv
      rw [← first?_advance, hnil, first?_nil]
    · -- what ends behind the first byte is the best match from there on
      have hone : first? (advance b live) [] =
          ((advance b live).find? (·.pattern.nullable)).map (·.action) := rfl
      obtain ⟨found, m, hfound, hmunch⟩ := ih (advance b live) (n + 1) _
      refine ⟨_, m, found_cons hfound, hmunch.trans ?_⟩
      rw [hone]
      cases found with
      | some f => simp [Nat.add_comm, Nat.add_left_comm]
      | none => cases (advance b live).find? (·.pattern.nullable) <;> simp

/-- A scanner finds the longest match at the beginning of a text, if there is one. -/
theorem munch_cases (rules : List (Rule τ)) (text : List UInt8) :
    (∃ a s rest, Takes (Piece rules) text a s rest ∧ munch rules text = .matched a s.length) ∨
      (∀ u v, text = u ++ v → u ≠ [] → first? rules u = none) ∧
        ∃ n, munch rules text = .failed n := by
  obtain ⟨found, m, hfound, hmunch⟩ := munchFrom_found rules 0 none text
  unfold munch
  rw [hmunch]
  cases hfound with
  | longest h => exact Or.inl ⟨_, _, _, h, by simp [Munch.ofBest]⟩
  | nothing h => exact Or.inr ⟨fun u v => h, _, rfl⟩

/-! ## The scan -/

/-- Pieces that are not dropped, at their places in a text that begins at `n`. -/
def placed : Nat → List (Action τ × List UInt8) → List (Token τ)
  | _, [] => []
  | n, (.emit kind, s) :: ps => ⟨kind, s, ⟨n, n + s.length⟩⟩ :: placed (n + s.length) ps
  | n, (.skip, s) :: ps => placed (n + s.length) ps

/-- The bytes of a piece already taken are passed over. -/
theorem scanFrom_append (rules : List (Rule τ)) (s rest : List UInt8) (offset : Nat) :
    scanFrom rules s.length offset (s ++ rest) = scanFrom rules 0 (offset + s.length) rest := by
  induction s generalizing offset with
  | nil => rfl
  | cons b s ih =>
    rw [List.length_cons, List.cons_append, scanFrom, ih, Nat.add_assoc, Nat.add_comm 1]

/-- A scan delivers the longest match, unless it is dropped, and goes on behind it. -/
theorem scanFrom_of_takes {n : Nat} (h : Takes (Piece rules) text a s rest) :
    scanFrom rules 0 n text =
      (placed n [(a, s)]).map .token ++ scanFrom rules 0 (n + s.length) rest := by
  have hmunch : munch rules text = .matched a s.length := by
    rcases munch_cases rules text with ⟨a', s', rest', h', hmunch⟩ | ⟨hnone, -⟩
    · obtain ⟨rfl, rfl⟩ := h.unique h'
      cases h.piece.symm.trans h'.piece
      exact hmunch
    · exact absurd (h.piece.symm.trans (hnone s rest h.split h.ne_nil)) (by simp)
  have hsplit := h.split
  obtain ⟨b, s, rfl⟩ := List.exists_cons_of_ne_nil h.ne_nil
  subst hsplit
  have hskip := scanFrom_append rules s rest (n + 1)
  rw [Nat.add_assoc, Nat.add_comm 1] at hskip
  rw [List.cons_append] at hmunch ⊢
  rw [scanFrom, hmunch]
  cases a with
  | emit kind =>
    have htake : (b :: (s ++ rest)).take (s.length + 1) = b :: s := by simp
    simp only [List.length_cons, Nat.add_sub_cancel, hskip, htake, placed]
    rfl
  | skip =>
    simp only [List.length_cons, Nat.add_sub_cancel, hskip, placed]
    rfl

/-- Where nothing matches there is a gap. -/
theorem scanFrom_of_none {n : Nat} (htext : text ≠ [])
    (h : ∀ u v, text = u ++ v → u ≠ [] → first? rules u = none) :
    ∃ span items, scanFrom rules 0 n text = .gap span :: items := by
  obtain ⟨b, rest, rfl⟩ := List.exists_cons_of_ne_nil htext
  rcases munch_cases rules (b :: rest) with ⟨a, s, v, htakes, -⟩ | ⟨-, m, hmunch⟩
  · exact absurd (htakes.piece.symm.trans (h s v htakes.split htakes.ne_nil)) (by simp)
  · rw [scanFrom, hmunch]
    exact ⟨_, _, rfl⟩

theorem placed_cons (n : Nat) (a : Action τ) (s : List UInt8) (ps : List (Action τ × List UInt8)) :
    placed n ((a, s) :: ps) = placed n [(a, s)] ++ placed (n + s.length) ps := by
  cases a <;> rfl

theorem placed_append (n : Nat) (ps qs : List (Action τ × List UInt8)) :
    placed n (ps ++ qs) = placed n ps ++ placed (n + (joined ps).length) qs := by
  induction ps generalizing n with
  | nil => rfl
  | cons p ps ih =>
    obtain ⟨a, s⟩ := p
    rw [List.cons_append, placed_cons, ih, placed_cons n a s ps, List.append_assoc, joined_cons,
      List.length_append, Nat.add_assoc]

/-- The scan of a text that can be cut delivers the pieces. -/
theorem scanFrom_of_cuts {ps : List (Action τ × List UInt8)} (h : Cuts (Piece rules) text ps)
    (n : Nat) : scanFrom rules 0 n text = (placed n ps).map .token := by
  induction h generalizing n with
  | nil => rfl
  | @cons _ a s _ ps h _ ih => rw [scanFrom_of_takes h, ih, placed_cons n a s ps, List.map_append]

/-- A text that is scanned without a gap can be cut.  The induction is on the length of the text,
since a piece is taken off as a whole. -/
theorem cuts_of_scanFrom {n k : Nat} (hk : text.length ≤ k)
    (h : gaps (scanFrom rules 0 n text) = []) : ∃ ps, Cuts (Piece rules) text ps := by
  induction k generalizing text n with
  | zero =>
    obtain rfl := List.length_eq_zero_iff.mp (Nat.le_zero.mp hk)
    exact ⟨[], .nil⟩
  | succ k ih =>
    by_cases htext : text = []
    · exact ⟨[], htext ▸ .nil⟩
    rcases munch_cases rules text with ⟨a, s, rest, htakes, -⟩ | ⟨hnone, -⟩
    · have hlen : rest.length ≤ k := by
        have hs := List.length_pos_iff.mpr htakes.ne_nil
        have hall := congrArg List.length htakes.split
        rw [List.length_append] at hall
        omega
      rw [scanFrom_of_takes htakes, gaps, List.filterMap_append, List.append_eq_nil_iff] at h
      obtain ⟨ps, hps⟩ := ih hlen h.2
      exact ⟨_, .cons htakes hps⟩
    · obtain ⟨span, items, hgap⟩ := scanFrom_of_none (n := n) htext hnone
      rw [hgap] at h
      cases h

variable (l : Lexer τ)

/-- A scan leaves no gap if and only if the text can be cut into longest pieces. -/
theorem gaps_eq_nil_iff (text : List UInt8) :
    gaps (l.scan text) = [] ↔ ∃ ps, Cuts (Piece l.rules) text ps := by
  constructor
  · exact cuts_of_scanFrom (Nat.le_refl _)
  · rintro ⟨ps, hps⟩
    rw [scan, scanFrom_of_cuts hps]
    simp [gaps, List.filterMap_map]

/-- The tokens of a text that can be cut are the pieces that are not dropped. -/
theorem tokens_of_cuts {ps : List (Action τ × List UInt8)} (h : Cuts (Piece l.rules) text ps) :
    tokens (l.scan text) = placed 0 ps := by
  rw [scan, scanFrom_of_cuts h]
  simp [tokens, List.filterMap_map]

/-! ## Places -/

section Placed

variable {n : Nat} {ps : List (Action τ × List UInt8)} {t : Token τ}

/-- A token that is placed is one of the pieces, and its span says where. -/
theorem mem_placed (h : t ∈ placed n ps) :
    ∃ before after, ps = before ++ (.emit t.kind, t.bytes) :: after ∧
      t.span = ⟨n + (joined before).length, n + (joined before).length + t.bytes.length⟩ := by
  induction ps generalizing n with
  | nil => simp [placed] at h
  | cons p ps ih =>
    obtain ⟨a, s⟩ := p
    rw [placed_cons, List.mem_append] at h
    rcases h with h | h
    · cases a with
      | emit kind =>
        rw [placed, placed, List.mem_singleton] at h
        subst h
        exact ⟨[], ps, rfl, rfl⟩
      | skip => simp [placed] at h
    · obtain ⟨before, after, rfl, hspan⟩ := ih h
      refine ⟨(a, s) :: before, after, rfl, ?_⟩
      rw [hspan, joined_cons, List.length_append, Nat.add_assoc n]

/-- Without their places, the tokens are the pieces that are not dropped. -/
theorem map_placed [DecidableEq τ] (n : Nat) (ps : List (Action τ × List UInt8)) :
    (placed n ps).map (fun t => (Action.emit t.kind, t.bytes)) = ps.filter (·.1 ≠ .skip) := by
  induction ps generalizing n with
  | nil => rfl
  | cons p ps ih =>
    obtain ⟨a, s⟩ := p
    cases a with
    | emit kind => simp [placed, ih]
    | skip => simp [placed, ih]

/-- Each token ends before the next one begins. -/
theorem pairwise_placed (n : Nat) (ps : List (Action τ × List UInt8)) :
    (placed n ps).Pairwise fun t u => t.span.stop ≤ u.span.start := by
  induction ps generalizing n with
  | nil => exact .nil
  | cons p ps ih =>
    obtain ⟨a, s⟩ := p
    cases a with
    | skip => exact ih _
    | emit kind =>
      refine .cons ?_ (ih _)
      intro u hu
      obtain ⟨before, after, -, hspan⟩ := mem_placed hu
      rw [hspan]
      exact Nat.le_add_right _ _

/-- A byte that no token covers belongs to a piece that was dropped. -/
theorem mem_dropped {i : Nat} {b : UInt8} (hb : (joined ps)[i]? = some b)
    (h : ∀ t ∈ placed n ps, n + i < t.span.start ∨ t.span.stop ≤ n + i) :
    ∃ s, (.skip, s) ∈ ps ∧ b ∈ s := by
  induction ps generalizing n i with
  | nil => simp at hb
  | cons p ps ih =>
    obtain ⟨a, s⟩ := p
    rw [joined_cons] at hb
    by_cases hi : i < s.length
    · rw [List.getElem?_append_left hi] at hb
      cases a with
      | skip => exact ⟨s, by simp, List.mem_of_getElem? hb⟩
      | emit kind =>
        have hcover := h ⟨kind, s, ⟨n, n + s.length⟩⟩ (by simp [placed])
        simp only at hcover
        omega
    · have hle : s.length ≤ i := Nat.le_of_not_lt hi
      rw [List.getElem?_append_right hle] at hb
      obtain ⟨u, hu, hmem⟩ := ih (n := n + s.length) hb fun t ht => by
        have hout := h t (by rw [placed_cons]; exact List.mem_append_right _ ht)
        omega
      exact ⟨u, by simp [hu], hmem⟩

end Placed

end Lexer

end AddressCode
