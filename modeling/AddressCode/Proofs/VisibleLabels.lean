import AddressCode.Proofs.RoundTrip
import AddressCode.Proofs.Storage

/-!
# AddressCode.Proofs.VisibleLabels — where labels lead

The scan of a program defines labels, counts the procedures that are open and passes over lines that
hold no instruction, all in one pass; a line may define a label and be an error at the same time.
What comes of it is said here without the scan: a label leads to the last line that is named by it
and stands outside of all procedures, and nowhere if there is none (`labels_visible`).  A run jumps
to such lines only, so the next line is there without a check.
-/

namespace AddressCode

/-- The text of a line in front of its first colon has the bytes `name`, but for the blanks around
it.  They need not be those of a string. -/
def Line.Named (l : Line) (name : List UInt8) : Prop :=
  ∃ before after, l.pieces = before ++ .char ':' :: after ∧ .char ':' ∉ before ∧
    Text.bytes (Text.trimPieces before) = name

/-- A line is named by the bytes of its label, if there are any, and by no others. -/
theorem Line.name_eq_iff {l : Line} {name : List UInt8} (hname : name ≠ []) :
    l.name = name ↔ l.Named name := by
  rw [Line.name, l.label_eq]
  constructor
  · intro h
    unfold splitLabel at h
    split at h
    · rename_i before after hcut
      obtain ⟨hpieces, hcolon⟩ := Text.cutAt?_eq_some hcut
      exact ⟨before, after, hpieces, hcolon, h⟩
    · exact absurd h.symm hname
  · rintro ⟨before, after, hpieces, hcolon, rfl⟩
    rw [hpieces, splitLabel, Text.cutAt?_append hcolon]

/-- The line at `i` is named `name` and stands outside of all procedures. -/
structure Program.Shows (p : Program) (name : List UInt8) (i : Nat) : Prop where
  line : ∃ l, p[i]? = some l ∧ l.Named name
  depth : p.staticDepth i = 0

theorem Program.shows_iff_visible {p : Program} {name : List UInt8} (hname : name ≠ []) {i : Nat} :
    p.Shows name i ↔ p.Visible name i := by
  have hline : (∃ l, p[i]? = some l ∧ l.Named name) ↔ ∃ l, p[i]? = some l ∧ l.name = name :=
    exists_congr fun l => and_congr_right fun _ => (Line.name_eq_iff hname).symm
  constructor
  · rintro ⟨hnamed, hdepth⟩
    exact ⟨hline.mp hnamed, hdepth⟩
  · rintro ⟨hlabel, hdepth⟩
    exact ⟨hline.mpr hlabel, hdepth⟩

namespace Engine

open Machine

variable {e : Engine} {m : Machine} {l : Line} {a : Activation} {s : Store} {position : Nat}

/-- A jump goes to the line that the label shows, in the program that is running. -/
theorem step_of_jump (he : e.Session) (hm : e.Reached m) (hl : m.At l)
    (hjump : m.effect e.config l = .signal a s (.jump position)) :
    m.step e.config = .next { m with current := { m.current with pc := position } } ∧
      ∃ name, m.current.program.Visible name position := by
  obtain ⟨rfl, rfl⟩ := eq_of_signal hjump (by simp)
  constructor
  · rw [step_at e.config hl, hjump]
    rfl
  · obtain ⟨label, hlabel⟩ := (does_of_effect hjump).label_of_jump
    have hlabels := labelled_kept.reached he hm m.current (by simp [activations])
    rw [hlabels] at hlabel
    exact ⟨_, Program.visible_of_lookup? hlabel⟩

/-- After the scan of any program a label that is not empty is found at a position just if this is
the last one of a line that is named by it and has no procedure open in front of it.  So every
position that is found is within the program, and at every moment of every run, in whatever call, a
line that signals a jump makes an existing line outside of all procedures the next one. -/
theorem labels_visible :
    (∀ (p : Program) (name : List UInt8), name ≠ [] → ∀ position,
      p.labels.lookup? name = some position ↔ IsGreatest {i | p.Shows name i} position) ∧
    (∀ (p : Program) (name : List UInt8) (position : Nat),
      p.labels.lookup? name = some position → position < p.size) ∧
    ∀ e : Engine, e.Session → ∀ m, e.Reached m → ∀ l, m.At l → ∀ a s position,
      m.effect e.config l = .signal a s (.jump position) →
        m.step e.config = .next { m with current := { m.current with pc := position } } ∧
          (∃ l', m.current.program[position]? = some l') ∧
          m.current.program.staticDepth position = 0 := by
  refine ⟨?_, ?_, ?_⟩
  · intro p name hname position
    have hset : {i | p.Shows name i} = {i | p.Visible name i} :=
      Set.ext fun i => Program.shows_iff_visible hname
    rw [hset]
    exact Program.lookup?_labels_iff hname
  · intro p name position h
    exact (Program.visible_of_lookup? h).lt_size
  · intro e he m hm l hl a s position hjump
    obtain ⟨hstep, name, hvisible⟩ := step_of_jump he hm hl hjump
    obtain ⟨l', hl', -⟩ := hvisible.line
    exact ⟨hstep, ⟨l', hl'⟩, hvisible.depth⟩

/-- A program in which `x` stands in front of an end of a procedure that was not begun, in front of
the line that begins a procedure, inside of the procedure, and last on a line that holds no
instruction.  Behind them are two labels that are no characters. -/
def jumpingToLast : Program := .ofTexts
  ["goto x", "x: EndFunc", "x : BeginFunc f, 0", "x: print 1", "EndFunc", " x: 1 2", "EndFunc",
    [.illFormed [0xFF], .char ':'], [.illFormed [0xFE], .char ':']]

/-- The state in which it starts. -/
def jumpingToLastStart : Machine :=
  (((Engine.new {}).load jumpingToLast).exec [] 0).1.machine

/-- The last of the lines named `x` counts, and the first line of the program jumps there.  The two
other labels are not the same. -/
theorem labels_visible_last : IsGreatest {i | jumpingToLast.Shows (Text.Utf8.encode "x") i} 5 ∧
    IsGreatest {i | jumpingToLast.Shows [0xFF] i} 7 ∧
    (∃ l, jumpingToLastStart.At l ∧ jumpingToLastStart.effect {} l =
      .signal jumpingToLastStart.current jumpingToLastStart.store (.jump 5)) ∧
    ∃ l', jumpingToLastStart.current.program[5]? = some l' := by
  have hfacts : jumpingToLast.labels.lookup? (Text.Utf8.encode "x") = some 5 ∧
      jumpingToLast.labels.lookup? [0xFF] = some 7 ∧
      jumpingToLastStart.current.program[jumpingToLastStart.current.pc]? =
        some (.ofString "goto x") ∧
      jumpingToLastStart.current.recording = none ∧
      jumpingToLastStart.current.labels.lookup? (Text.Utf8.encode "x") = some 5 ∧
      (Line.ofString "goto x").instr = .ok (.goto "x") := by
    decide +kernel
  obtain ⟨hlookup, hbytes, hat, hquiet, hfound, hinstr⟩ := hfacts
  have hline : jumpingToLastStart.At (.ofString "goto x") := ⟨hat, hquiet⟩
  have hjump : jumpingToLastStart.effect {} (.ofString "goto x") =
      .signal jumpingToLastStart.current jumpingToLastStart.store (.jump 5) := by
    simp only [Machine.effect, Activation.effect, hinstr, Activation.execute, hfound]
  have hsession : ((Engine.new {}).load jumpingToLast).Session := .load (.new {}) _
  have hreached : ((Engine.new {}).load jumpingToLast).Reached jumpingToLastStart :=
    reached_exec ((Engine.new {}).load jumpingToLast) [] 0 rfl
  obtain ⟨hlabels, -, hjumps⟩ := labels_visible
  obtain ⟨-, hexists, -⟩ := hjumps _ hsession _ hreached _ hline _ _ _ hjump
  exact ⟨(hlabels jumpingToLast _ (by decide) 5).mp hlookup,
    (hlabels jumpingToLast _ (by decide) 7).mp hbytes, ⟨_, hline, hjump⟩, hexists⟩

end Engine

end AddressCode
