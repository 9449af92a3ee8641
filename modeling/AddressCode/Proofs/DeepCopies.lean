import AddressCode.Proofs.Acyclicity

/-!
# AddressCode.Proofs.DeepCopies — a copy shares nothing, not even with itself

The copy of a value is its content built anew.  So an array that is an element in several places is
copied once for each of them, and every array in a copy is new and has one place in it.

* `Store.Path` is a way to an array, as the indices that are taken on it; `Store.unique_law` says
  that there is only one way to each array that was built from a content.
* `Store.setAll` is a sequence of writes to elements.  Writes to older arrays do not change what is
  found in a copy, and writes to arrays of a copy do not change what was there before.
* `Store.clone_deep` is the main theorem.  It asks for indices that are numbers, as all those are
  that an instruction writes to (`Expr.not_isNaN_of_evalIndex`).  What is no number compares equal
  to every index and takes the place of one that it meets; a copy, which is made in the order of the
  indices, meets another one (`Store.clone_not_faithful_nanIndexed`).
-/

namespace AddressCode

/-- All arrays found in a value exist. -/
def Value.InStore (s : Store) (v : Value) : Prop := ∀ c, s.Reach v c → c < s.cells.size

/-- The indices of an array ascend if only numbers were ever written to. -/
theorem Tree.ascending_ofList {α : Type} {es : List (Number × α)}
    (h : ∀ e ∈ es, e.1.isNaN = false) : Ascending (Tree.ofList es).entries :=
  ascending_insertAll h Store.ascending_nil

namespace Store

variable {s s' t : Store} {u v w : Value} {c : Nat} {p p' : List Number} {vs : List Value}

/-! ## Ways to an array -/

/-- Taking the elements at the indices `p`, one inside of the other, leads to the array in the
cell. -/
inductive Path (s : Store) : Value → List Number → Nat → Prop where
  | here (c : Nat) : Path s (.array (some c)) [] c
  | inside {c d : Nat} {e : Number × Value} {p : List Number}
      (he : e ∈ (s.elements c).entries) (h : Path s e.2 p d) :
      Path s (.array (some c)) (e.1 :: p) d

theorem Path.reach (h : s.Path v p c) : s.Reach v c := by
  induction h with
  | here c => exact .here c
  | inside he _ ih => exact .inside he ih

/-- Every array that is found has a way to it. -/
theorem Reach.path (h : s.Reach v c) : ∃ p, s.Path v p c := by
  induction h with
  | here c => exact ⟨[], .here c⟩
  | @inside _ _ e he _ ih =>
    obtain ⟨p, hp⟩ := ih
    exact ⟨e.1 :: p, .inside he hp⟩

/-- What is fresh stays within the cells it has got, as long as these are kept. -/
theorem Fresh.mem_added (h : Fresh s s' vs) (hkeep : Keeps s s' t) (hv : v ∈ vs)
    (hc : t.Reach v c) : c ∈ added s s' := by
  have hsame : ∀ d, s'.Reach v d → t.elements d = s'.elements d := by
    intro d hd
    obtain ⟨hlo, hhi⟩ := h.footprint_subset ⟨v, hv, hd⟩
    exact hkeep d hlo hhi
  exact h.footprint_subset ⟨v, hv, reach_of_reach hsame hc⟩

/-- There is one way to each array that is built from a content, and each element that is built has
its own. -/
theorem unique_law : BuildLaw
    (fun s _ s' v => ∀ {t : Store} {c : Nat} {p p' : List Number}, Keeps s s' t →
      t.Path v p c → t.Path v p' c → p = p')
    (fun s _ s' es => ∀ {t : Store} {c : Nat} {p p' : List Number} {e e' : Number × Value},
      Keeps s s' t → e ∈ es → e' ∈ es → t.Path e.2 p c → t.Path e'.2 p' c → e = e' ∧ p = p') where
  leaf {_ x _} hx _ _ _ _ _ hp := by
    cases x <;> cases hx <;> cases hp
  array {s s' items es} hes hitems t c p p' hkeep hp hp' := by
    have hfresh := Fresh.buildItems items hes
    have hkeep' := hkeep.of_changes (changes_alloc s' (.ofList es))
    have hcell : t.elements s'.cells.size = .ofList es :=
      hkeep.elements_alloc hfresh.changes.size_le
    -- the way into an element does not come back to the new array
    have hin : ∀ {e : Number × Value} {q : List Number} {d : Nat},
        e ∈ (t.elements s'.cells.size).entries → t.Path e.2 q d →
        e ∈ es ∧ d < s'.cells.size := by
      intro e q d he hq
      rw [hcell] at he
      have he' := Tree.mem_entries_ofList he
      exact ⟨he', (hfresh.mem_added hkeep' (List.mem_map_of_mem he') hq.reach).2⟩
    cases hp with
    | here =>
      cases hp' with
      | here => rfl
      | inside he' h' => exact absurd (hin he' h').2 (Nat.lt_irrefl _)
    | inside he h =>
      cases hp' with
      | here => exact absurd (hin he h).2 (Nat.lt_irrefl _)
      | inside he' h' =>
        obtain ⟨rfl, rfl⟩ := hitems hkeep' (hin he h).1 (hin he' h').1 h h'
        rfl
  nil _ he := by cases he
  cons {s s₁ s₂ i x v rest es} hx hrest ihx ihrest t c p p' e e' hkeep he he' hp hp' := by
    have hfirst := Fresh.build x hx
    have hsecond := Fresh.buildItems rest hrest
    have hkeep₁ := hkeep.of_changes hsecond.changes
    have hkeep₂ := hkeep.mono hfirst.changes.size_le
    have hold : t.Reach v c → c < s₁.cells.size :=
      fun hc => (hfirst.mem_added hkeep₁ (List.mem_singleton_self v) hc).2
    have hnew : ∀ {d : Number × Value}, d ∈ es → t.Reach d.2 c → s₁.cells.size ≤ c :=
      fun hd hc => (hsecond.mem_added hkeep₂ (List.mem_map_of_mem hd) hc).1
    -- the first element and the others have got different cells
    rcases List.mem_cons.mp he with rfl | he
    · rcases List.mem_cons.mp he' with rfl | he'
      · exact ⟨rfl, ihx hkeep₁ hp hp'⟩
      · exact absurd (hold hp.reach) (Nat.not_lt.mpr (hnew he' hp'.reach))
    · rcases List.mem_cons.mp he' with rfl | he'
      · exact absurd (hold hp'.reach) (Nat.not_lt.mpr (hnew he hp.reach))
      · exact ihrest hkeep₂ he he' hp hp'

/-! ## Sequences of writes -/

/-- The store after a sequence of writes, each with its cell, its index and its value. -/
def setAll (s : Store) (writes : List (Nat × Number × Value)) : Store :=
  writes.foldl (fun s write => s.set write.1 write.2.1 write.2.2) s

variable {writes : List (Nat × Number × Value)}

/-- Writes to other cells leave a cell as it is. -/
theorem elements_setAll (h : ∀ write ∈ writes, write.1 ≠ c) :
    (s.setAll writes).elements c = s.elements c := by
  induction writes generalizing s with
  | nil => rfl
  | cons write writes ih =>
    obtain ⟨hhead, htail⟩ := List.forall_mem_cons.mp h
    exact (ih htail).trans (elements_set_of_ne write.2.1 (Ne.symm hhead))

/-- Writes to arrays that are not found in a value leave its text as it is. -/
theorem text?_setAll (h : ∀ write ∈ writes, ¬ s.Reach v write.1) :
    (s.setAll writes).text? v = s.text? v := by
  refine text?_congr fun d hd => elements_setAll ?_
  rintro write hwrite rfl
  exact h write hwrite hd

/-! ## Copies -/

/-- The copy of a value without cycles, whose arrays have ascending indices.

There is one.  It leaves all arrays as they are, has the content of the value, which is written out
in full, and the same text.  Every array found in the copy is new, has one way to it only, and is
not found in any value that was there before.  After any writes to older arrays the copy still has
the text of the value, and after any writes to arrays of the copy every older value has its text. -/
theorem clone_deep (hv : v.InStore s) (hacyc : v.Acyclic s)
    (hasc : ∀ c, s.Reach v c → Ascending (s.elements c).entries) :
    ∃ s' w, s.clone? v = some (s', w) ∧
      (∀ c < s.cells.size, s'.get? c = s.get? c) ∧
      (s.content v).Finite ∧ s'.content w = s.content v ∧
      (s.text? v).isSome = true ∧ s'.text? w = s.text? v ∧
      (∀ c, s'.Reach w c → s.cells.size ≤ c ∧ c < s'.cells.size) ∧
      (∀ c, s'.Reach w c → ∃! p, s'.Path w p c) ∧
      (∀ u, u.InStore s → ∀ c, s'.Reach w c → ¬ s'.Reach u c) ∧
      (∀ writes : List (Nat × Number × Value), (∀ write ∈ writes, write.1 < s.cells.size) →
        (s'.setAll writes).text? w = s.text? v) ∧
      ∀ writes : List (Nat × Number × Value), (∀ write ∈ writes, s'.Reach w write.1) →
        ∀ u, u.InStore s → (s'.setAll writes).text? u = s.text? u := by
  have hfinite : (s.content v).Finite :=
    finite_contentFrom hv hacyc List.nodup_nil nofun (by simp) nofun
  obtain ⟨⟨s', w⟩, hclone⟩ := Option.isSome_iff_exists.mp (hfinite.build s)
  have hfresh : Fresh s s' [w] := Fresh.clone hclone
  have hcopy : s'.Copy w s s' (s.content v) :=
    ⟨hclone, ascends_contentFrom hasc, Nat.le_refl _, fun _ _ _ => rfl⟩
  have hnew : ∀ c, s'.Reach w c → s.cells.size ≤ c ∧ c < s'.cells.size :=
    fun c hc => hfresh.footprint_subset ⟨w, List.mem_singleton_self w, hc⟩
  have hkeep : ∀ c < s.cells.size, s'.elements c = s.elements c :=
    fun c hc => hfresh.changes.elements_eq c hc (Set.notMem_empty c)
  -- an older value holds the same arrays as before, and they have kept their elements
  have hsame : ∀ u : Value, u.InStore s → ∀ c, s.Reach u c → s'.elements c = s.elements c :=
    fun u hu c hc => hkeep c (hu c hc)
  have hapart : ∀ u : Value, u.InStore s → ∀ c, s'.Reach w c → ¬ s'.Reach u c := by
    intro u hu c hw hc
    have hold := hu c (reach_of_reach (hsame u hu) hc)
    exact Nat.not_lt.mpr (hnew c hw).1 hold
  have htext : s'.text? w = s.text? v := congrArg Content.text? hcopy.content
  refine ⟨s', w, hclone, ?_, hfinite, hcopy.content, hfinite.text, htext, hnew, ?_, hapart, ?_, ?_⟩
  · intro c hc
    rw [get?_of_lt hc, get?_of_lt (Nat.lt_of_lt_of_le hc hfresh.changes.size_le), hkeep c hc]
  · intro c hc
    obtain ⟨p, hp⟩ := hc.path
    exact ⟨p, hp, fun p' hp' => unique_law.build _ hclone (fun _ _ _ => rfl) hp' hp⟩
  · intro writes hwrites
    rw [← htext]
    refine text?_setAll fun write hwrite hreach => ?_
    exact Nat.not_lt.mpr (hnew _ hreach).1 (hwrites write hwrite)
  · intro writes hwrites u hu
    rw [← text?_congr (hsame u hu)]
    exact text?_setAll fun write hwrite => hapart u hu _ (hwrites write hwrite)

/-- A store with an array that is an element of another one in two places. -/
def sharedTwice : Store :=
  ⟨#[.ofList [(.one, .pointer "x")], .ofList [(.zero, .array (some 0)), (.one, .array (some 0))]]⟩

/-- The copy has three arrays for the two, and its text outlasts a write to the shared one. -/
theorem clone_deep_sharedTwice : ∃ s' w,
    sharedTwice.clone? (.array (some 1)) = some (s', w) ∧ s'.cells.size = 5 ∧
    (s'.setAll [(0, .one, .boolean true)]).text? w = some "[0:[1:&x] 1:[1:&x]]" := by
  have hinner : ∀ e ∈ (sharedTwice.elements 0).entries, e.2 = .pointer "x" := by decide +kernel
  have houter : ∀ e ∈ (sharedTwice.elements 1).entries, e.2 = .array (some 0) := by decide +kernel
  have hzero : ∀ c, sharedTwice.Reach (.array (some 0)) c → c = 0 := by
    intro c hc
    obtain ⟨_, ⟨⟩, rfl | ⟨e, he, hin⟩⟩ := reach_iff_array.mp hc
    · rfl
    · rw [hinner e he] at hin
      cases hin
  have hreach : ∀ c, sharedTwice.Reach (.array (some 1)) c → c = 0 ∨ c = 1 := by
    intro c hc
    obtain ⟨_, ⟨⟩, rfl | ⟨e, he, hin⟩⟩ := reach_iff_array.mp hc
    · exact Or.inr rfl
    · rw [houter e he] at hin
      exact Or.inl (hzero c hin)
  have hexist : (Value.array (some 1)).InStore sharedTwice := by
    intro c hc
    rcases hreach c hc with rfl | rfl <;> decide +kernel
  have hacyc : (Value.array (some 1)).Acyclic sharedTwice := by
    rintro c hc ⟨e, he, hcycle⟩
    rcases hreach c hc with rfl | rfl
    · rw [hinner e he] at hcycle
      cases hcycle
    · rw [houter e he] at hcycle
      cases hzero 1 hcycle
  have hasc : ∀ c, sharedTwice.Reach (.array (some 1)) c →
      Ascending (sharedTwice.elements c).entries := by
    intro c hc
    rcases hreach c hc with rfl | rfl
    · exact Tree.ascending_ofList (by decide +kernel)
    · exact Tree.ascending_ofList (by decide +kernel)
  obtain ⟨s', w, hclone, -, -, -, -, -, -, -, -, hkept, -⟩ := clone_deep hexist hacyc hasc
  have hfacts : (sharedTwice.clone? (.array (some 1))).map (·.1.cells.size) = some 5 ∧
      sharedTwice.text? (.array (some 1)) = some "[0:[1:&x] 1:[1:&x]]" := by
    decide +kernel
  obtain ⟨hsize, htext⟩ := hfacts
  rw [hclone] at hsize
  refine ⟨s', w, hclone, Option.some.inj hsize, ?_⟩
  rw [hkept [(0, .one, .boolean true)] (by decide +kernel), htext]

/-- A store with an array of which one index is no number. -/
def nanIndexed : Store :=
  ⟨#[.ofList [(.one, .scalar .zero), (.zero, .scalar .one), (.nan, .scalar .one)]]⟩

/-- Its copy has lost an element, although the array is on no cycle. -/
theorem clone_not_faithful_nanIndexed :
    (Value.array (some 0)).InStore nanIndexed ∧ (Value.array (some 0)).Acyclic nanIndexed ∧
      nanIndexed.text? (.array (some 0)) = some "[0:1 NaN:1]" ∧
      ∃ s' w, nanIndexed.clone? (.array (some 0)) = some (s', w) ∧
        s'.text? w = some "[NaN:1]" := by
  have hplain : ∀ e ∈ (nanIndexed.elements 0).entries, ∀ c, e.2 ≠ .array c := by
    have hone : ∀ e ∈ (nanIndexed.elements 0).entries, e.2 = .scalar .one := by decide +kernel
    intro e he c
    rw [hone e he]
    nofun
  have hreach : ∀ c, nanIndexed.Reach (.array (some 0)) c → c = 0 := by
    intro c hc
    obtain ⟨_, ⟨⟩, rfl | ⟨e, he, hin⟩⟩ := reach_iff_array.mp hc
    · rfl
    · obtain ⟨d, hd, -⟩ := reach_iff_array.mp hin
      exact absurd hd (hplain e he _)
  have hfacts : nanIndexed.text? (.array (some 0)) = some "[0:1 NaN:1]" ∧
      (nanIndexed.clone? (.array (some 0))).bind (fun r => r.1.text? r.2) = some "[NaN:1]" := by
    decide +kernel
  obtain ⟨htext, hcopy⟩ := hfacts
  obtain ⟨⟨s', w⟩, hclone, htext'⟩ := Option.bind_eq_some_iff.mp hcopy
  refine ⟨?_, ?_, htext, s', w, hclone, htext'⟩
  · intro c hc
    rw [hreach c hc]
    decide +kernel
  · rintro c hc ⟨e, he, hcycle⟩
    rw [hreach c hc] at he
    obtain ⟨d, hd, -⟩ := reach_iff_array.mp hcycle
    exact hplain e he _ hd

end Store

end AddressCode
