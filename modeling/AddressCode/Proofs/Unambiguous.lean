import AddressCode.Proofs.Acyclicity
import AddressCode.Proofs.Decimals
import AddressCode.Proofs.Words
import Mathlib.Data.List.Forall2

/-!
# AddressCode.Proofs.Unambiguous — a value is known from its text

The text of an array gives no kinds for its elements, and blanks, colons and brackets are all that
separates them.  It can still be taken apart in one way only, as long as the value has a text and
the pointers in it name identifiers (`Value.Legible`): values with the same text are the same when
they are written out, up to what is no number (`Content.Legible.text?_eq_iff`).

* `Tells` is how two texts are taken apart together: whatever follows them, if it begins with a
  character at which they have to end, then they end at the same place.  Words, texts one behind the
  other and lists of texts are taken apart so (`tells_word`, `Tells.followed`, `tells_bracketed`).
* `Content.Legible.tells`, an induction over the content, is about nested arrays.
* `Value.Legible.content` leads from the value in its store to its content.
-/

namespace AddressCode

/-! ## Texts taken apart -/

/-- A text does not go on, or does so with one of some characters. -/
def StopsAt (stop : Char → Prop) (r : List Char) : Prop := ∀ c ∈ r.head?, stop c

/-- Two texts tell `A` and where they end: if both are followed by something that stops them and
look the same, then `A` holds and the same follows them. -/
def Tells (stop : Char → Prop) (A : Prop) (t u : List Char) : Prop :=
  ∀ r r', StopsAt stop r → StopsAt stop r' → t ++ r = u ++ r' → A ∧ r = r'

section Tells

variable {stop stop' : Char → Prop} {A B : Prop} {t t' u u' : List Char}

theorem stopsAt_cons {c : Char} {r : List Char} (h : stop c) : StopsAt stop (c :: r) := by
  rintro _ ⟨⟩
  exact h

theorem Tells.mono (h : Tells stop A t u) (hA : A → B) (hstop : ∀ c, stop' c → stop c) :
    Tells stop' B t u := by
  intro r r' hr hr' heq
  obtain ⟨ha, heq⟩ := h r r' (fun c hc => hstop c (hr c hc)) (fun c hc => hstop c (hr' c hc)) heq
  exact ⟨hA ha, heq⟩

theorem Tells.symm (h : Tells stop A t u) : Tells stop A u t := by
  intro r r' hr hr' heq
  obtain ⟨ha, heq⟩ := h r' r hr' hr heq.symm
  exact ⟨ha, heq.symm⟩

/-- Nothing follows the texts. -/
theorem Tells.of_eq (h : Tells stop A t u) (heq : t = u) : A :=
  (h [] [] nofun nofun (by rw [heq])).1

/-- Words have none of the characters that stop them. -/
theorem tells_word (ht : ∀ c ∈ t, ¬ stop c) (hu : ∀ c ∈ u, ¬ stop c) : Tells stop (t = u) t u := by
  intro r r' hr hr' heq
  induction t generalizing u with
  | nil =>
    cases u with
    | nil => exact ⟨rfl, heq⟩
    | cons d u =>
      obtain rfl : r = d :: u ++ r' := heq
      exact absurd (hr d rfl) (hu d List.mem_cons_self)
  | cons c t ih =>
    cases u with
    | nil =>
      obtain rfl : c :: t ++ r = r' := heq
      exact absurd (hr' c rfl) (ht c List.mem_cons_self)
    | cons d u =>
      obtain ⟨rfl, htail⟩ := List.cons.inj heq
      obtain ⟨rfl, hrest⟩ :=
        ih (List.forall_mem_cons.mp ht).2 (List.forall_mem_cons.mp hu).2 htail
      exact ⟨rfl, hrest⟩

/-- A word differs from what begins with a character that is not in it and does not stop it. -/
theorem tells_of_not_mem {c : Char} (ht : c ∉ t) (hc : ¬ stop c) : Tells stop A t (c :: u) := by
  intro r r' hr _ heq
  cases t with
  | nil =>
    obtain rfl : r = c :: u ++ r' := heq
    exact absurd (hr c rfl) hc
  | cons d t =>
    obtain ⟨rfl, -⟩ := List.cons.inj heq
    exact absurd List.mem_cons_self ht

/-- The same text in front of two texts. -/
theorem Tells.behind (h : Tells stop A t u) (w : List Char) : Tells stop A (w ++ t) (w ++ u) := by
  intro r r' hr hr' heq
  rw [List.append_assoc, List.append_assoc] at heq
  exact h r r' hr hr' (List.append_cancel_left heq)

/-- Two texts, the same separator behind them, and two more texts. -/
theorem Tells.followed (h : Tells stop A t u) {w : List Char} (hw : ∃ c, w.head? = some c ∧ stop c)
    (h' : Tells stop' B t' u') : Tells stop' (A ∧ B) (t ++ (w ++ t')) (u ++ (w ++ u')) := by
  obtain ⟨c, hhead, hc⟩ := hw
  obtain ⟨w, rfl⟩ := List.head?_eq_some_iff.mp hhead
  intro r r' hr hr' heq
  rw [List.append_assoc t, List.append_assoc u] at heq
  obtain ⟨ha, heq⟩ := h (c :: w ++ t' ++ r) (c :: w ++ u' ++ r') (stopsAt_cons hc)
    (stopsAt_cons hc) heq
  obtain ⟨hb, heq⟩ := h'.behind (c :: w) r r' hr hr' heq
  exact ⟨⟨ha, hb⟩, heq⟩

/-- The same text behind two texts, which it stops. -/
theorem Tells.before (h : Tells stop A t u) {w : List Char} (hw : ∃ c, w.head? = some c ∧ stop c) :
    Tells stop' A (t ++ w) (u ++ w) := by
  have hnothing : Tells stop' True [] [] := fun _ _ _ _ heq => ⟨trivial, heq⟩
  have hboth := h.followed hw hnothing
  rw [List.append_nil] at hboth
  exact hboth.mono And.left fun _ hc => hc

end Tells

/-! ### Lists -/

/-- Texts, each behind a separator, and a character that closes the list. -/
def closed (sep close : Char) : List (List Char) → List Char
  | [] => [close]
  | t :: ts => sep :: (t ++ closed sep close ts)

/-- Texts with a separator between them, and a character that closes the list. -/
def bracketed (sep close : Char) : List (List Char) → List Char
  | [] => [close]
  | t :: ts => t ++ closed sep close ts

theorem bracketed_eq (sep close : Char) (ts : List (List Char)) :
    bracketed sep close ts = [sep].intercalate ts ++ [close] := by
  have hclosed : ∀ t ts, t ++ closed sep close ts = [sep].intercalate (t :: ts) ++ [close] := by
    intro t ts
    induction ts generalizing t with
    | nil => simp [closed]
    | cons t' ts ih => simp [closed, ih, List.intercalate_cons_cons]
  cases ts with
  | nil => rfl
  | cons t ts => exact hclosed t ts

section Lists

variable {α β : Type} {T : α → List Char} {U : β → List Char} {R : α → β → Prop}
  {sep close : Char} {xs : List α} {ys : List β} {stop : Char → Prop}

theorem tells_closed (hne : sep ≠ close)
    (h : ∀ x ∈ xs, ∀ y ∈ ys, Tells (fun c => c = sep ∨ c = close) (R x y) (T x) (U y)) :
    Tells stop (List.Forall₂ R xs ys) (closed sep close (xs.map T))
      (closed sep close (ys.map U)) := by
  intro r r' hr hr' heq
  have hbegins : ∀ (ts : List (List Char)) (w : List Char),
      StopsAt (fun c => c = sep ∨ c = close) (closed sep close ts ++ w) := by
    intro ts w
    cases ts with
    | nil => exact stopsAt_cons (Or.inr rfl)
    | cons t ts => exact stopsAt_cons (Or.inl rfl)
  induction xs generalizing ys with
  | nil =>
    cases ys with
    | nil => exact ⟨.nil, (List.cons.inj heq).2⟩
    | cons y ys => exact absurd (List.cons.inj heq).1.symm hne
  | cons x xs ih =>
    cases ys with
    | nil => exact absurd (List.cons.inj heq).1 hne
    | cons y ys =>
      simp only [List.map_cons, closed, List.cons_append, List.cons.injEq, true_and,
        List.append_assoc] at heq
      obtain ⟨hxy, heq⟩ := h x List.mem_cons_self y List.mem_cons_self _ _ (hbegins _ _)
        (hbegins _ _) heq
      obtain ⟨hrest, heq⟩ := ih (fun x' hx' y' hy' =>
        h x' (List.mem_cons_of_mem x hx') y' (List.mem_cons_of_mem y hy')) heq
      exact ⟨.cons hxy hrest, heq⟩

/-- Lists of texts that do not begin like the end of a list are taken apart text by text. -/
theorem tells_bracketed (hne : sep ≠ close)
    (h : ∀ x ∈ xs, ∀ y ∈ ys, Tells (fun c => c = sep ∨ c = close) (R x y) (T x) (U y))
    (hT : ∀ x ∈ xs, ∃ c t, T x = c :: t ∧ c ≠ close)
    (hU : ∀ y ∈ ys, ∃ c u, U y = c :: u ∧ c ≠ close) :
    Tells stop (List.Forall₂ R xs ys) (bracketed sep close (xs.map T))
      (bracketed sep close (ys.map U)) := by
  intro r r' hr hr' heq
  cases xs with
  | nil =>
    cases ys with
    | nil => exact ⟨.nil, (List.cons.inj heq).2⟩
    | cons y ys =>
      obtain ⟨c, u, hu, hc⟩ := hU y List.mem_cons_self
      simp only [List.map_nil, List.map_cons, bracketed, hu] at heq
      exact absurd (List.cons.inj heq).1.symm hc
  | cons x xs =>
    cases ys with
    | nil =>
      obtain ⟨c, t, ht, hc⟩ := hT x List.mem_cons_self
      simp only [List.map_nil, List.map_cons, bracketed, ht] at heq
      exact absurd (List.cons.inj heq).1 hc
    | cons y ys =>
      -- with one more separator in front, the lists are taken apart from their first texts on
      exact tells_closed hne h r r' hr hr' (congrArg (List.cons sep) heq)

end Lists

/-! ## Names -/

/-- Is a name one that can stand in an instruction? -/
def IsIdentifier (name : String) : Prop :=
  Word.Lexeme (.emit .ident) (Text.Utf8.encode name)

/-- An identifier has letters, digits and underscores only. -/
theorem IsIdentifier.not_mem {name : String} (h : IsIdentifier name) {c : Char}
    (hlt : c.toNat < 128)
    (hc : ¬ Word.NameStart (UInt8.ofNat c.toNat) ∧ ¬ Word.Digit (UInt8.ofNat c.toNat)) :
    c ∉ name.toList := by
  intro hmem
  have hbyte : UInt8.ofNat c.toNat ∈ Text.Utf8.encode name := by
    refine List.mem_flatMap.mpr ⟨.char c, List.mem_map.mpr ⟨c, hmem, rfl⟩, ?_⟩
    rw [Text.Piece.bytes, Text.utf8EncodeChar_of_lt hlt]
    exact List.mem_singleton_self _
  have hall : ∀ b ∈ Text.Utf8.encode name, Word.NameStart b ∨ Word.Digit b := by
    unfold IsIdentifier at h
    generalize Text.Utf8.encode name = bs at h
    cases h with
    | identifier hb hs => exact List.forall_mem_cons.mpr ⟨Or.inl hb, hs⟩
    | sign hs => simp at hs
  exact (hall _ hbyte).elim hc.1 hc.2

/-! ## Contents -/

namespace Content

variable {x y : Content} {items items' : List (Number × Content)}

/-- The characters of a content that has a text. -/
def written (x : Content) : List Char := (x.text?.getD "").toList

/-- The characters of an element. -/
def writtenItem (e : Number × Content) : List Char := e.1.text.toList ++ ':' :: e.2.written

mutual

/-- The content that a text gives back: all that are no numbers are one. -/
def canonical : Content → Content
  | undefined => undefined
  | scalar x => scalar x.canonical
  | boolean b => boolean b
  | pointer name => pointer name
  | unallocated => unallocated
  | array items => array (canonicalItems items)
  | cycle => cycle

/-- The same for the elements of an array and their indices. -/
def canonicalItems : List (Number × Content) → List (Number × Content)
  | [] => []
  | (i, x) :: rest => (i.canonical, x.canonical) :: canonicalItems rest

end

mutual

theorem text?_canonical : ∀ x : Content, x.canonical.text? = x.text?
  | undefined => rfl
  | scalar x => by rw [canonical, text?, text?, Number.text_canonical]
  | boolean _ => rfl
  | pointer _ => rfl
  | unallocated => rfl
  | array items => by rw [canonical, text?, text?, itemTexts?_canonicalItems items]
  | cycle => rfl

theorem itemTexts?_canonicalItems :
    ∀ items : List (Number × Content), itemTexts? (canonicalItems items) = itemTexts? items
  | [] => rfl
  | (i, x) :: rest => by
    rw [canonicalItems, itemTexts?, itemTexts?, text?_canonical x, itemTexts?_canonicalItems rest,
      Number.text_canonical]

end

theorem written_congr (h : x.canonical = y.canonical) : x.written = y.written := by
  rw [written, written, ← text?_canonical x, h, text?_canonical]

theorem canonicalItems_eq_of_forall₂ (h : List.Forall₂ (fun e e' : Number × Content =>
    e.1.canonical = e'.1.canonical ∧ e.2.canonical = e'.2.canonical) items items') :
    canonicalItems items = canonicalItems items' := by
  induction h with
  | nil => rfl
  | cons he _ ih => rw [canonicalItems, canonicalItems, he.1, he.2, ih]

/-- A content without arrays. -/
inductive Plain : Content → Prop where
  | undefined : Plain undefined
  | scalar (x : Number) : Plain (scalar x)
  | boolean (b : Bool) : Plain (boolean b)
  | pointer {name : String} (h : IsIdentifier name) : Plain (pointer name)

/-- A content without cycles in which all arrays have storage and all pointers name identifiers. -/
inductive Legible : Content → Prop where
  | plain {x : Content} (h : Plain x) : Legible x
  | array {items : List (Number × Content)} (h : ∀ e ∈ items, Legible e.2) :
      Legible (array items)

/-- The characters behind which the text of a content is over. -/
def Stop (c : Char) : Prop := c = ' ' ∨ c = ']' ∨ c = '"'

instance (c : Char) : Decidable (Stop c) := inferInstanceAs (Decidable (_ ∨ _))

theorem Legible.text?_isSome (h : x.Legible) : x.text?.isSome = true := by
  induction h with
  | plain h => cases h <;> rfl
  | array _ ih =>
    rw [text?, Option.isSome_map]
    exact itemTexts?_isSome ih

theorem Legible.text?_eq (h : x.Legible) : x.text? = some (String.ofList x.written) := by
  obtain ⟨t, ht⟩ := Option.isSome_iff_exists.mp h.text?_isSome
  rw [written, ht, Option.getD_some, String.ofList_toList]

/-! ### Words -/

/-- The word of a content without arrays. -/
def ofWord (t : String) : Content :=
  if t = "undefined" then undefined
  else if t = "true" then boolean true
  else if t = "false" then boolean false
  else match t.toList with
    | '&' :: name => pointer (String.ofList name)
    | _ => match Number.parse t with
      | .ok x => scalar x
      | .error _ => undefined

/-- A content without arrays is read again from its text. -/
theorem Plain.ofWord_written (h : Plain x) : ofWord (String.ofList x.written) = x.canonical := by
  cases h with
  | undefined => rfl
  | scalar x =>
    have hne : ∀ {t : String} (c : Char), c ∈ t.toList → ¬ Number.TextChar c → x.text ≠ t :=
      fun c hc hnot heq => hnot (Number.mem_text (heq ▸ hc))
    simp only [written, text?, Option.getD_some, String.ofList_toList, ofWord]
    rw [if_neg (hne 'u' (by decide) (by decide)), if_neg (hne 't' (by decide) (by decide)),
      if_neg (hne 'l' (by decide) (by decide)), x.parse_text]
    split
    · next name heq => exact absurd (Number.mem_text (heq ▸ List.mem_cons_self)) (by decide)
    · rfl
  | boolean b => cases b <;> rfl
  | @pointer name _ =>
    have hchars : ("&" ++ name).toList = '&' :: name.toList := by simp
    have hne : ∀ {t : String}, t.toList.head? ≠ some '&' → "&" ++ name ≠ t :=
      fun hhead heq => hhead (by rw [← heq, hchars, List.head?_cons])
    simp only [written, text?, Option.getD_some, String.ofList_toList, ofWord, canonical]
    rw [if_neg (hne (by decide)), if_neg (hne (by decide)), if_neg (hne (by decide)), hchars]
    simp

/-- Characters that are neither of these do not stop a text and do not look like an array. -/
theorem chars_of_not_mem {cs : List Char}
    (h : ' ' ∉ cs ∧ ']' ∉ cs ∧ '"' ∉ cs ∧ '[' ∉ cs) : ∀ c ∈ cs, ¬ Stop c ∧ c ≠ '[' := by
  obtain ⟨hspace, hclose, hquote, hopen⟩ := h
  intro c hc
  constructor
  · rintro (rfl | rfl | rfl)
    · exact hspace hc
    · exact hclose hc
    · exact hquote hc
  · rintro rfl
    exact hopen hc

/-- The characters of a word do not end it, and it does not look like an array. -/
theorem Plain.chars (h : Plain x) : ∀ c ∈ x.written, ¬ Stop c ∧ c ≠ '[' := by
  apply chars_of_not_mem
  cases h with
  | undefined => decide
  | scalar x =>
    have hnot : ∀ {c : Char}, ¬ Number.TextChar c → c ∉ (Content.scalar x).written :=
      fun hc hmem => hc (Number.mem_text hmem)
    exact ⟨hnot (by decide), hnot (by decide), hnot (by decide), hnot (by decide)⟩
  | boolean b => cases b <;> decide
  | @pointer name h =>
    have hchars : (Content.pointer name).written = '&' :: name.toList := by simp [written, text?]
    have hnot : ∀ {c : Char}, c ≠ '&' → c.toNat < 128 →
        ¬ Word.NameStart (UInt8.ofNat c.toNat) ∧ ¬ Word.Digit (UInt8.ofNat c.toNat) →
          c ∉ (Content.pointer name).written := by
      intro c hne hlt hc
      rw [hchars]
      exact List.not_mem_cons_of_ne_of_not_mem hne (h.not_mem hlt hc)
    exact ⟨hnot (by decide) (by decide) (by decide), hnot (by decide) (by decide) (by decide),
      hnot (by decide) (by decide) (by decide), hnot (by decide) (by decide) (by decide)⟩

theorem Plain.tells (hx : Plain x) (hy : Plain y) :
    Tells Stop (x.canonical = y.canonical) x.written y.written := by
  refine (tells_word (fun c hc => (hx.chars c hc).1) fun c hc => (hy.chars c hc).1).mono ?_
    fun _ h => h
  intro heq
  rw [← hx.ofWord_written, ← hy.ofWord_written, heq]

/-! ### Arrays -/

theorem itemTexts?_eq (h : ∀ e ∈ items, e.2.Legible) :
    ∃ ts, itemTexts? items = some ts ∧ ts.map String.toList = items.map writtenItem := by
  induction items with
  | nil => exact ⟨[], rfl, rfl⟩
  | cons e items ih =>
    obtain ⟨i, x⟩ := e
    obtain ⟨hx, hrest⟩ := List.forall_mem_cons.mp h
    obtain ⟨ts, hts, hmap⟩ := ih hrest
    refine ⟨(i.text ++ ":" ++ String.ofList x.written) :: ts, ?_, ?_⟩
    · simp only [itemTexts?, hx.text?_eq, hts]
    · simp [hmap, writtenItem]

theorem toList_spaced (ts : List String) :
    (spaced ts).toList = [' '].intercalate (ts.map String.toList) := by
  induction ts using spaced.induct with
  | case1 => rfl
  | case2 s => simp [spaced]
  | case3 s rest hne ih =>
    obtain ⟨t, rest, rfl⟩ := List.exists_cons_of_ne_nil hne
    rw [spaced, String.toList_append, String.toList_append, ih]
    · simp [List.intercalate_cons_cons]
    · simp

theorem written_array (h : ∀ e ∈ items, e.2.Legible) :
    (array items).written = '[' :: bracketed ' ' ']' (items.map writtenItem) := by
  obtain ⟨ts, hts, hmap⟩ := itemTexts?_eq h
  simp [written, text?, hts, toList_spaced, hmap, bracketed_eq]

/-- An element is an index up to the colon, and a content. -/
theorem tells_item {e e' : Number × Content}
    (h : Tells Stop (e.2.canonical = e'.2.canonical) e.2.written e'.2.written) :
    Tells (fun c => c = ' ' ∨ c = ']')
      (e.1.canonical = e'.1.canonical ∧ e.2.canonical = e'.2.canonical)
      (writtenItem e) (writtenItem e') := by
  have hchars : ∀ (x : Number), ∀ c ∈ x.text.toList, ¬ c = ':' :=
    fun x c hc heq => absurd (Number.mem_text (heq ▸ hc)) (by decide)
  have hindex : Tells (· = ':') (e.1.canonical = e'.1.canonical) e.1.text.toList e'.1.text.toList :=
    (tells_word (hchars e.1) (hchars e'.1)).mono
      (fun heq => Number.text_inj (String.toList_inj.mp heq)) fun _ h => h
  have hstop : ∀ c, c = ' ' ∨ c = ']' → Stop c := fun c hc => hc.imp_right Or.inl
  have hcolon : ∃ c, [':'].head? = some c ∧ c = ':' := ⟨':', rfl, rfl⟩
  exact hindex.followed hcolon (h.mono id hstop)

theorem writtenItem_head (e : Number × Content) : ∃ c t, writtenItem e = c :: t ∧ c ≠ ']' := by
  have hchars : ∀ c ∈ e.1.text.toList, c ≠ ']' :=
    fun c hc heq => absurd (Number.mem_text (heq ▸ hc)) (by decide)
  rw [writtenItem]
  cases htext : e.1.text.toList with
  | nil => exact ⟨':', _, rfl, by decide⟩
  | cons c t => exact ⟨c, _, rfl, hchars c (htext ▸ List.mem_cons_self)⟩

/-- Contents with the same text, whatever follows them, are the same up to what is no number. -/
theorem Legible.tells (hx : x.Legible) (hy : y.Legible) :
    Tells Stop (x.canonical = y.canonical) x.written y.written := by
  induction hx generalizing y with
  | plain hx =>
    cases hy with
    | plain hy => exact hx.tells hy
    | array hitems =>
      rw [written_array hitems]
      exact tells_of_not_mem (fun hmem => (hx.chars _ hmem).2 rfl) (by decide)
  | @array items hitems ih =>
    rw [written_array hitems]
    cases hy with
    | plain hy => exact (tells_of_not_mem (fun hmem => (hy.chars _ hmem).2 rfl) (by decide)).symm
    | @array items' hitems' =>
      rw [written_array hitems']
      have hlist : Tells Stop (List.Forall₂ (fun e e' : Number × Content =>
          e.1.canonical = e'.1.canonical ∧ e.2.canonical = e'.2.canonical) items items')
          (bracketed ' ' ']' (items.map writtenItem))
          (bracketed ' ' ']' (items'.map writtenItem)) :=
        tells_bracketed (by decide) (fun e he e' he' => tells_item (ih e he (hitems' e' he')))
          (fun e _ => writtenItem_head e) fun e _ => writtenItem_head e
      refine (hlist.mono (fun hall => ?_) fun _ h => h).behind ['[']
      rw [canonical, canonical, canonicalItems_eq_of_forall₂ hall]

/-- Contents have the same text if and only if they are the same up to what is no number. -/
theorem Legible.text?_eq_iff (hx : x.Legible) (hy : y.Legible) :
    x.text? = y.text? ↔ x.canonical = y.canonical := by
  constructor
  · intro heq
    have hwritten : x.written = y.written := by simp only [written, heq]
    exact (hx.tells hy).of_eq hwritten
  · intro heq
    rw [← text?_canonical x, heq, text?_canonical]

end Content

/-! ## Values -/

/-- A value without cycles in which all arrays have storage and all pointers name identifiers. -/
structure Value.Legible (s : Store) (v : Value) : Prop where
  acyclic : v.Acyclic s
  stored : ∀ cell, s.Found v (.array cell) → ∃ c, cell = some c ∧ c < s.cells.size
  named : ∀ name, s.Found v (.pointer name) → IsIdentifier name

namespace Value

variable {s s' : Store} {v w : Value}

theorem found_of_reach {c : Nat} (h : s.Reach v c) : s.Found v (.array (some c)) := by
  induction h with
  | here c => exact .here _
  | inside he _ ih => exact .inside he ih

/-- Well-formed values without cycles are legible if their pointers name identifiers. -/
theorem WellFormed.legible (h : v.WellFormed s) (hacyclic : v.Acyclic s)
    (hnamed : ∀ name, s.Found v (.pointer name) → IsIdentifier name) : v.Legible s := by
  refine ⟨hacyclic, fun cell hcell => ?_, hnamed⟩
  obtain ⟨c, es, hsound⟩ := (h _ hcell).2 cell rfl
  exact ⟨c, hsound.cell_eq, (Array.getElem?_eq_some_iff.mp hsound.stored).1⟩

theorem plain_contentFrom {n : Nat} {path : List Nat} (hv : ∀ cell, v ≠ .array cell)
    (hnamed : ∀ name, s.Found v (.pointer name) → IsIdentifier name) :
    (s.contentFrom n path v).Plain := by
  cases v with
  | undefined => cases n <;> exact .undefined
  | scalar x => cases n <;> exact .scalar x
  | boolean b => cases n <;> exact .boolean b
  | pointer name => cases n <;> exact .pointer (hnamed name (.here _))
  | array cell => exact absurd rfl (hv cell)

/-- A content without cycles is legible if all arrays found in the value have storage and all
pointers name identifiers. -/
theorem legible_contentFrom {n : Nat} {path : List Nat}
    (hfinite : (s.contentFrom n path v).Finite)
    (hstored : ∀ cell, s.Found v (.array cell) → ∃ c, cell = some c ∧ c < s.cells.size)
    (hnamed : ∀ name, s.Found v (.pointer name) → IsIdentifier name) :
    (s.contentFrom n path v).Legible := by
  induction n generalizing path v with
  | zero =>
    cases v with
    | array cell =>
      obtain ⟨c, rfl, -⟩ := hstored cell (.here _)
      cases hfinite with
      | leaf h => cases h
    | _ => exact .plain (plain_contentFrom nofun hnamed)
  | succ n ih =>
    cases v with
    | array cell =>
      obtain ⟨c, rfl, -⟩ := hstored cell (.here _)
      rw [Store.contentFrom] at hfinite ⊢
      -- a cell of the path is a cycle, and there is none
      split at hfinite
      · cases hfinite with
        | leaf h => cases h
      · next hpath =>
        rw [if_neg hpath]
        refine .array fun item hitem => ?_
        cases hfinite with
        | leaf h => cases h
        | array hall =>
          have hitemFinite := hall item hitem
          obtain ⟨e, he, rfl⟩ := List.mem_map.mp hitem
          exact ih hitemFinite (fun cell hcell => hstored cell (.inside he hcell))
            fun name hname => hnamed name (.inside he hname)
    | _ => exact .plain (plain_contentFrom nofun hnamed)

/-- What a legible value is when it is written out. -/
theorem Legible.content (h : v.Legible s) : (s.content v).Legible := by
  have hlt : ∀ c, s.Reach v c → c < s.cells.size := by
    intro c hc
    obtain ⟨_, ⟨⟩, hlt⟩ := h.stored _ (found_of_reach hc)
    exact hlt
  exact legible_contentFrom (Store.finite_contentFrom hlt h.acyclic List.nodup_nil nofun (by simp)
    nofun) h.stored h.named

end Value

end AddressCode
