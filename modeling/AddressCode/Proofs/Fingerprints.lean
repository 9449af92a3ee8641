import AddressCode.Output
import AddressCode.Proofs.Unambiguous

/-!
# AddressCode.Proofs.Fingerprints — what a fingerprint is made of

A fingerprint is the digest of one text for the whole log.  Nothing in it is escaped: the names are
between quotes, the numbers are in decimal, and the text of a value is between quotes too.  For logs
of legible values whose procedures are identifiers the text still determines the log
(`Log.preimage_determines`): two logs with the same text have as many records, and each record has
the line, the procedure, the kind and the written out value of its counterpart (`Record.Same`).

* `Log.tells_record`: a record is taken apart field by field, each one up to the quote or the comma
  behind it.
* The records are taken apart one by one (`Log.tells_records`).
-/

namespace AddressCode

/-- Two records have the same line, procedure and kind, and values that are the same when they are
written out, up to what is no number. -/
structure Record.Same (s s' : Store) (r r' : Record) : Prop where
  line : r.line = r'.line
  proc : r.proc = r'.proc
  kind : r.value.kind = r'.value.kind
  content : (s.content r.value).canonical = (s'.content r'.value).canonical

namespace Log

variable {s s' : Store} {log log' : Log} {r r' : Record}
  {stop : Char → Prop}

/-- The procedures are identifiers, and the values are legible. -/
def Legible (s : Store) (log : Log) : Prop :=
  ∀ r ∈ log, IsIdentifier r.proc ∧ r.value.Legible s

/-! ## Records -/

theorem Kind.name_injective : Function.Injective Value.Kind.name := by
  intro k k' h
  revert h
  cases k <;> cases k' <;> decide

theorem toString_line (line : Int) :
    toString line = if 0 ≤ line then toString line.toNat else "-" ++ toString (-line).toNat := by
  rw [Int.toString_eq_repr, Int.repr_eq_if, Nat.toString_eq_repr, Nat.toString_eq_repr]

/-- A line number has digits, and a sign if it is negative. -/
theorem mem_line {line : Int} {c : Char} (hc : c ∈ (toString line).toList) :
    c.isDigit = true ∨ c = '-' := by
  rw [toString_line] at hc
  split at hc
  · exact Or.inl (Text.isDigit_toString c hc)
  · rw [String.toList_append] at hc
    rcases List.mem_append.mp hc with hc | hc
    · exact Or.inr (List.mem_singleton.mp hc)
    · exact Or.inl (Text.isDigit_toString c hc)

/-- Different line numbers are written differently. -/
theorem line_inj {line line' : Int} (h : toString line = toString line') : line = line' := by
  have hsign : ∀ {n : Nat} {t : String}, toString n ≠ "-" ++ t := by
    intro n t heq
    have hdigit := Text.isDigit_toString '-' (heq ▸ by simp : '-' ∈ (toString n).toList)
    cases hdigit
  rw [toString_line, toString_line] at h
  split at h <;> split at h
  · have heq := Text.toString_inj h
    omega
  · exact absurd h hsign
  · exact absurd h.symm hsign
  · have heq := Text.toString_inj ((String.append_right_inj _).mp h)
    omega

/-- The characters of a record. -/
def written (s : Store) (r : Record) : List Char :=
  (recordText r.value.kind r.line r.proc (String.ofList (s.content r.value).written)).toList

theorem ofList_written (s : Store) (r : Record) : String.ofList (written s r) =
    recordText r.value.kind r.line r.proc (String.ofList (s.content r.value).written) :=
  String.ofList_toList

/-- The fields of a record and what separates them. -/
theorem written_eq (s : Store) (r : Record) : written s r =
    "\x7bKind:\"".toList ++ (r.value.kind.name.toList ++ ("\",Line:".toList ++
      ((toString r.line).toList ++ (",Proc:\"".toList ++ (r.proc.toList ++
        ("\",Value:\"".toList ++ ((s.content r.value).written ++ "\"\x7d".toList))))))) := by
  delta written recordText
  simp only [String.toList_append, String.toList_ofList, List.append_assoc]

/-- A record is taken apart field by field. -/
theorem tells_record (h : IsIdentifier r.proc ∧ r.value.Legible s)
    (h' : IsIdentifier r'.proc ∧ r'.value.Legible s') :
    Tells stop (r.Same s s' r') (written s r) (written s' r') := by
  -- a field has no character that is the first one behind it, whatever its characters are
  have hquote : ∀ {name : String}, IsIdentifier name → ∀ c ∈ name.toList, ¬ c = '"' :=
    fun hname c hc heq => hname.not_mem (by decide) (by decide) (heq ▸ hc)
  have hkindQuote : ∀ (k : Value.Kind), ∀ c ∈ k.name.toList, ¬ c = '"' := by
    rintro k _ hc rfl
    revert hc
    cases k <;> decide
  have hcomma : ∀ {line : Int}, ∀ c ∈ (toString line).toList, ¬ c = ',' := by
    rintro line _ hc rfl
    exact absurd (mem_line hc) (by decide)
  have hvalue : Tells stop _ (_ ++ "\"\x7d".toList) (_ ++ "\"\x7d".toList) :=
    (h.2.content.tells h'.2.content).before ⟨'"', by decide, Or.inr (Or.inr rfl)⟩
  have hproc : Tells (· = '"') (r.proc = r'.proc) r.proc.toList r'.proc.toList :=
    (tells_word (hquote h.1) (hquote h'.1)).mono String.toList_inj.mp fun _ h => h
  have hline : Tells (· = ',') (r.line = r'.line) (toString r.line).toList
      (toString r'.line).toList :=
    (tells_word hcomma hcomma).mono (fun heq => line_inj (String.toList_inj.mp heq)) fun _ h => h
  have hkind : Tells (· = '"') (r.value.kind = r'.value.kind) r.value.kind.name.toList
      r'.value.kind.name.toList :=
    (tells_word (hkindQuote _) (hkindQuote _)).mono
      (fun heq => Kind.name_injective (String.toList_inj.mp heq)) fun _ h => h
  rw [written_eq, written_eq]
  refine Tells.mono (Tells.behind (hkind.followed ⟨'"', by decide, rfl⟩ (hline.followed
    ⟨',', by decide, rfl⟩ (hproc.followed ⟨'"', by decide, rfl⟩ hvalue))) _) ?_ fun _ h => h
  rintro ⟨hkind, hline, hproc, hcontent⟩
  exact ⟨hline, hproc, hkind, hcontent⟩

theorem written_congr (h : r.Same s s' r') : written s r = written s' r' := by
  apply String.ofList_injective
  rw [ofList_written, ofList_written, h.line, h.proc, h.kind, Content.written_congr h.content]

/-! ## Logs -/

/-- The text for the characters of some records. -/
def dump (ts : List (List Char)) : String :=
  String.ofList ("\x7bRecords:[".toList ++ (bracketed ',' ']' ts ++ ['\x7d']))

theorem dump_eq (ts : List (List Char)) :
    "\x7bRecords:[" ++ ",".intercalate (ts.map String.ofList) ++ "]\x7d" = dump ts := by
  have hclose : "]\x7d".toList = [']', '\x7d'] := by decide
  have hcomma : ",".toList = [','] := by decide
  apply String.toList_inj.mp
  delta dump
  simp only [bracketed_eq, String.toList_append, String.toList_ofList,
    String.toList_intercalate, List.map_map, Function.comp_def, List.map_id_fun', id,
    List.append_assoc, hclose, hcomma, List.cons_append, List.nil_append]

/-- Every value of a legible log has a text. -/
theorem preimage?_eq (h : log.Legible s) :
    log.preimage? s = some (dump (log.toList.map (written s))) := by
  have hrecords : ∀ rs : List Record, (∀ r ∈ rs, r.value.Legible s) →
      (rs.mapM fun r => (s.text? r.value).map (recordText r.value.kind r.line r.proc)) =
        some ((rs.map (written s)).map String.ofList) := by
    intro rs hrs
    induction rs with
    | nil => rfl
    | cons r rs ih =>
      obtain ⟨hr, hrest⟩ := List.forall_mem_cons.mp hrs
      have htext : s.text? r.value = some (String.ofList (s.content r.value).written) :=
        hr.content.text?_eq
      rw [List.mapM_cons, ih hrest, htext, Option.map_some, List.map_cons, List.map_cons,
        ofList_written]
      rfl
  rw [preimage?, hrecords log.toList fun r hr => (h r (Array.mem_toList_iff.mp hr)).2,
    Option.map_some, dump_eq]

theorem written_map_congr {rs rs' : List Record} (h : List.Forall₂ (Record.Same s s') rs rs') :
    rs.map (written s) = rs'.map (written s') := by
  induction h with
  | nil => rw [List.map_nil, List.map_nil]
  | cons hr _ ih => rw [List.map_cons, List.map_cons, written_congr hr, ih]

/-- The records of two logs are taken apart one by one. -/
theorem tells_records (h : log.Legible s) (h' : log'.Legible s') :
    Tells (· = '\x7d') (List.Forall₂ (Record.Same s s') log.toList log'.toList)
      (bracketed ',' ']' (log.toList.map (written s)))
      (bracketed ',' ']' (log'.toList.map (written s'))) := by
  have hhead : ∀ (s : Store) (r : Record), ∃ c t, written s r = c :: t ∧ c ≠ ']' :=
    fun s r => ⟨'\x7b', _, written_eq s r, by decide⟩
  exact tells_bracketed (by decide)
    (fun r hr r' hr' => tells_record (h r (Array.mem_toList_iff.mp hr))
      (h' r' (Array.mem_toList_iff.mp hr')))
    (fun r _ => hhead s r) fun r _ => hhead s' r

/-- The text that a fingerprint is the digest of determines the log, and the text of a value
determines the value: what is the same has the same text, and nothing else has.  The stores may be
those of different runs. -/
theorem preimage_determines :
    (∀ {s s' : Store} {log log' : Log}, log.Legible s → log'.Legible s' →
      ∃ t t', log.preimage? s = some t ∧ log'.preimage? s' = some t' ∧
        (t = t' ↔ List.Forall₂ (Record.Same s s') log.toList log'.toList)) ∧
    ∀ {s s' : Store} {v w : Value}, v.Legible s → w.Legible s' →
      ∃ t t', s.text? v = some t ∧ s'.text? w = some t' ∧
        (t = t' ↔ (s.content v).canonical = (s'.content w).canonical) := by
  constructor
  · intro s s' log log' h h'
    refine ⟨_, _, preimage?_eq h, preimage?_eq h', ?_, ?_⟩
    · -- the text ends with the brackets of the log, so nothing else follows the records
      intro heq
      have hchars := List.append_cancel_left (String.ofList_injective heq)
      exact (tells_records h h' _ _ (stopsAt_cons rfl) (stopsAt_cons rfl) hchars).1
    · intro hall
      rw [written_map_congr hall]
  · intro s s' v w hv hw
    refine ⟨_, _, hv.content.text?_eq, hw.content.text?_eq, ?_⟩
    rw [← hv.content.text?_eq_iff hw.content, hv.content.text?_eq, hw.content.text?_eq,
      Option.some_inj]

/-! ## An array in an array -/

/-- An array with a pointer. -/
def inner : Elements := .ofList [(.one, .pointer "p")]

/-- An array with an array. -/
def outer (i : Number) (cell : Nat) : Elements := .ofList [(i, .array (some cell))]

theorem isIdentifier_letter : IsIdentifier "p" ∧ IsIdentifier "f" := by
  have hp : Text.Utf8.encode "p" = [0x70] := by decide
  have hf : Text.Utf8.encode "f" = [0x66] := by decide
  rw [IsIdentifier, IsIdentifier, hp, hf]
  exact ⟨.identifier (by decide) nofun, .identifier (by decide) nofun⟩

theorem isIdentifier_root : IsIdentifier rootName := by
  have hbytes : Text.Utf8.encode rootName = [0x72, 0x6F, 0x6F, 0x74] := by decide
  rw [IsIdentifier, hbytes]
  refine .identifier (by decide) ?_
  simp only [List.forall_mem_cons, List.not_mem_nil, false_imp_iff, implies_true, and_true]
  decide

/-- Neither array holds itself, and the only pointer names an identifier. -/
theorem legible_nested {i : Number} {c d : Nat} (hc : s.get? c = some inner)
    (hd : s.get? d = some (outer i c)) : (Value.array (some d)).Legible s := by
  have hinner : (s.elements c).entries = [(.one, .pointer "p")] := by
    rw [Store.elements, hc]
    rfl
  have houter : (s.elements d).entries = [(i, .array (some c))] := by
    rw [Store.elements, hd]
    rfl
  have hne : d ≠ c := by
    rintro rfl
    simp [houter] at hinner
  have hfound : ∀ w, s.Found (.array (some d)) w →
      w = .array (some d) ∨ w = .array (some c) ∨ w = .pointer "p" := by
    intro w hw
    cases hw with
    | here => exact Or.inl rfl
    | inside he hw =>
      rw [houter, List.mem_singleton] at he
      subst he
      cases hw with
      | here => exact Or.inr (Or.inl rfl)
      | inside he hw =>
        rw [hinner, List.mem_singleton] at he
        subst he
        cases hw with
        | here => exact Or.inr (Or.inr rfl)
  have hcycle : ∀ e ∈ (s.elements c).entries, ∀ k, ¬ s.Reach e.2 k := by
    rw [hinner]
    rintro _ (⟨⟩ | ⟨_, ⟨⟩⟩) k ⟨⟩
  refine ⟨fun k hk => ?_, fun cell hcell => ?_, fun name hname => ?_⟩
  · rintro ⟨e, he, hek⟩
    rcases hfound _ (Value.found_of_reach hk) with hk | hk | hk
    · cases hk
      rw [houter, List.mem_singleton] at he
      subst he
      obtain ⟨_, ⟨⟩, rfl | ⟨e, he, hed⟩⟩ := Store.reach_iff_array.mp hek
      · exact hne rfl
      · exact hcycle e he d hed
    · cases hk
      exact hcycle e he c hek
    · cases hk
  · rcases hfound _ hcell with h | h | h
    · exact ⟨d, Value.array.inj h, (Array.getElem?_eq_some_iff.mp hd).1⟩
    · exact ⟨c, Value.array.inj h, (Array.getElem?_eq_some_iff.mp hc).1⟩
    · cases h
  · rcases hfound _ hname with h | h | h
    · cases h
    · cases h
    · exact Value.pointer.inj h ▸ isIdentifier_letter.1

theorem legible_scalar (x : Number) : (Value.scalar x).Legible s := by
  refine ⟨fun c hc => ?_, fun cell hcell => ?_, fun name hname => ?_⟩
  · cases hc
  · cases hcell
  · cases hname

/-- Another one that is no number. -/
def otherNaN : Number := ⟨0xFFF8000000000001⟩

/-- The cells of the two arrays in either order. -/
def innerFirst (i : Number) : Store := ⟨#[inner, outer i 0]⟩

@[inherit_doc innerFirst]
def outerFirst (i : Number) : Store := ⟨#[outer i 1, inner]⟩

/-- A number is printed in the root program, and then an array in a procedure. -/
def printed (x : Number) (cell : Nat) : Log :=
  #[⟨.scalar x, 1, rootName⟩, ⟨.array (some cell), 2, "f"⟩]

theorem legible_printed {x : Number} {cell : Nat} (h : (Value.array (some cell)).Legible s) :
    (printed x cell).Legible s := by
  intro r hr
  simp only [printed, List.mem_toArray, List.mem_cons, List.not_mem_nil, or_false] at hr
  rcases hr with rfl | rfl
  · exact ⟨isIdentifier_root, legible_scalar x⟩
  · exact ⟨isIdentifier_letter.2, h⟩

/-- Neither the cells nor the kind of what is no number show in the text, but the sign of an index
that is zero does. -/
theorem preimage_determines_signs :
    (printed .nan 1).preimage? (innerFirst .negativeZero) =
      (printed otherNaN 0).preimage? (outerFirst .negativeZero) ∧
    (printed .nan 1).preimage? (innerFirst .negativeZero) ≠
      (printed .nan 1).preimage? (innerFirst .zero) ∧
    (innerFirst .negativeZero).text? (.array (some 1)) ≠
      (innerFirst .zero).text? (.array (some 1)) := by
  have hinner : ∀ i, (Value.array (some 1)).Legible (innerFirst i) :=
    fun i => legible_nested (i := i) rfl rfl
  have houter : ∀ i, (Value.array (some 0)).Legible (outerFirst i) :=
    fun i => legible_nested (i := i) rfl rfl
  have hcontent : ∀ i, ((innerFirst i).content (.array (some 1))).canonical =
      .array [(i.canonical, .array [(.one, .pointer "p")])] := fun i => rfl
  have hdiffer : ((innerFirst .negativeZero).content (.array (some 1))).canonical ≠
      ((innerFirst .zero).content (.array (some 1))).canonical := by
    rw [hcontent, hcontent]
    intro heq
    simp at heq
    revert heq
    decide
  obtain ⟨hlogs, hvalues⟩ := preimage_determines
  refine ⟨?_, ?_, ?_⟩
  · obtain ⟨t, t', ht, ht', hiff⟩ := hlogs (legible_printed (x := .nan) (hinner .negativeZero))
      (legible_printed (x := otherNaN) (houter .negativeZero))
    rw [ht, ht', hiff.mpr]
    exact .cons ⟨rfl, rfl, rfl, rfl⟩ (.cons ⟨rfl, rfl, rfl, rfl⟩ .nil)
  · obtain ⟨t, t', ht, ht', hiff⟩ := hlogs (legible_printed (x := .nan) (hinner .negativeZero))
      (legible_printed (x := .nan) (hinner .zero))
    rw [ht, ht']
    intro heq
    have hall := hiff.mp (Option.some.inj heq)
    cases hall with
    | cons _ hrest =>
      cases hrest with
      | cons hsame _ => exact hdiffer hsame.content
  · obtain ⟨t, t', ht, ht', hiff⟩ := hvalues (hinner .negativeZero) (hinner .zero)
    rw [ht, ht']
    exact fun heq => hdiffer (hiff.mp (Option.some.inj heq))

end Log

end AddressCode
