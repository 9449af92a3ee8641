import AddressCode.Proofs.Calls
import AddressCode.Proofs.Causes
import AddressCode.Proofs.Nesting

/-!
# AddressCode.Proofs.Recording — bodies are recorded and not executed

Two invariants.

* `Machine.Orderly` holds in all states of a session: every procedure that a scope knows has a
  balanced body, but for the one that is being recorded, whose lines have as many procedures open
  as the recording says.  Who waits for a call records nothing.
* `Machine.Aligned` holds in a run that begins without a recording: what an activation has counted
  along the path it took is what the text says in front of its line.  This is where two scans meet:
  jumps lead only to lines outside of all procedures, and a recording goes through its lines one
  after the other.

Together they say that procedures are recorded where they stand and executed only when they are
called (`recorded_not_executed`).
-/

namespace AddressCode

/-! ## Tables of procedures -/

namespace Scope

theorem find?_define (s : Scope) (p : Procedure) (name : String) :
    (s.define p).find? name = if name = p.name then some p else s.find? name := by
  simp only [define, find?, Ordered.get?_insert]
  by_cases hn : name = p.name
  · simp [hn]
  · have hcmp : compare name p.name ≠ .eq := fun h => hn (Std.LawfulEqOrd.eq_of_compare h)
    simp [hn, hcmp]

theorem find?_append (s : Scope) (proc name : String) (l : Line) :
    (s.append proc l).find? name =
      if name = proc then (s.find? name).map fun p => { p with body := p.body.push l }
      else s.find? name := by
  simp only [append, find?, Ordered.get?_modify]
  by_cases hn : name = proc
  · simp [hn]
  · have hcmp : compare name proc ≠ .eq := fun h => hn (Std.LawfulEqOrd.eq_of_compare h)
    simp [hn, hcmp]

/-- All procedures of a scope have balanced bodies. -/
def Balanced (s : Scope) : Prop := ∀ name p, s.find? name = some p → Program.Balanced p.body

/-- A procedure that is found in a chain of scopes is known to one of them. -/
theorem find?_of_resolve? {name : String} {scopes home : List Scope} {p : Procedure}
    (h : resolve? name scopes = some (p, home)) : ∃ s ∈ scopes, s.find? name = some p := by
  induction scopes with
  | nil => cases h
  | cons s outer ih =>
    simp only [resolve?] at h
    split at h
    · rename_i p' hp
      cases h
      exact ⟨s, by simp, hp⟩
    · obtain ⟨s', hmem, hp⟩ := ih h
      exact ⟨s', by simp [hmem], hp⟩

end Scope

/-! ## What scopes hold -/

namespace Activation

variable {limit : Nat} {a a' : Activation} {s s' : Store} {l : Line}

/-- The procedures that an activation knows have balanced bodies; the one that is being recorded
has as many procedures open as its recording says, apart from itself. -/
structure Orderly (a : Activation) : Prop where
  home : ∀ s ∈ a.home, s.Balanced
  closed : ∀ name p, a.scope.find? name = some p → (∀ r, a.recording = some r → r.proc ≠ name) →
    Program.Balanced p.body
  opened : ∀ r, a.recording = some r →
    ∃ p d, a.scope.find? r.proc = some p ∧ r.depth = d + 1 ∧ OpenBy d p.body.toList

/-- Only the procedures and the recording matter. -/
theorem Orderly.congr (h : a.Orderly) (hhome : a'.home = a.home) (hscope : a'.scope = a.scope)
    (hrec : a'.recording = a.recording) : a'.Orderly := by
  constructor
  · rw [hhome]
    exact h.home
  · rw [hscope, hrec]
    exact h.closed
  · rw [hscope, hrec]
    exact h.opened

/-- All procedures are balanced while nothing is recorded. -/
theorem Orderly.balanced (h : a.Orderly) (hquiet : a.recording = none) :
    ∀ s ∈ a.scopes, s.Balanced := by
  intro s hs
  rcases List.mem_cons.mp hs with rfl | hs
  · intro name p hp
    refine h.closed name p hp ?_
    intro r hr
    rw [hquiet] at hr
    cases hr
  · exact h.home s hs

/-- The beginning of a recording. -/
theorem Orderly.define (h : a.Orderly) (hquiet : a.recording = none) (name : String)
    (arity : Int) :
    Orderly { a with
      scope := a.scope.define ⟨name, arity, #[]⟩, recording := some ⟨name, 1⟩ } := by
  constructor
  · exact h.home
  · intro name' p hp hne
    have hname : name' ≠ name := fun heq => hne _ rfl heq.symm
    rw [Scope.find?_define, if_neg hname] at hp
    exact h.balanced hquiet a.scope (by simp [scopes]) name' p hp
  · intro r hr
    cases hr
    refine ⟨⟨name, arity, #[]⟩, 0, ?_, rfl, openBy_nil⟩
    rw [Scope.find?_define, if_pos rfl]

/-- A line that is recorded is the end of the recorded procedure, or it is added to the body. -/
theorem record_cases (a : Activation) (r : Recording) (l : Line) :
    (l.closes = true ∧ r.depth ≤ 1 ∧ a.record r l = { a with recording := none }) ∨
      (l.closes = true → 1 < r.depth) ∧ a.record r l = { a with
        recording := some { r with depth := Program.depthAfter r.depth l }
        scope := a.scope.append r.proc l } := by
  unfold record
  split
  · rename_i hend
    rw [Bool.and_eq_true, decide_eq_true_eq] at hend
    exact Or.inl ⟨hend.1, hend.2, rfl⟩
  · rename_i hgo
    refine Or.inr ⟨?_, rfl⟩
    intro hc
    rw [hc, Bool.true_and, decide_eq_true_eq] at hgo
    omega

/-- A recorded line.  The line that ends the recording finds the body balanced, any other one that
ends a procedure finds one open. -/
theorem Orderly.record {r : Recording} (h : a.Orderly) (hr : a.recording = some r) (l : Line) :
    (a.record r l).Orderly := by
  obtain ⟨q, d, hq, hdepth, hopen⟩ := h.opened r hr
  -- the procedures that are not recorded
  have hothers : ∀ name p, a.scope.find? name = some p → r.proc ≠ name →
      Program.Balanced p.body := by
    intro name p hp hne
    refine h.closed name p hp ?_
    intro r' hr'
    rw [hr] at hr'
    cases hr'
    exact hne
  rcases a.record_cases r l with ⟨_, hle, heq⟩ | ⟨hgo, heq⟩
  · rw [heq]
    constructor
    · exact h.home
    · intro name p hp _
      by_cases hname : r.proc = name
      · have hpq : some p = some q := by rw [← hp, ← hname, hq]
        cases hpq
        have hzero : d = 0 := by omega
        rw [hzero] at hopen
        exact hopen
      · exact hothers name p hp hname
    · intro r' hr'
      cases hr'
  · have hpos : l.closes = true → 0 < d := by
      intro hc
      have hlt := hgo hc
      omega
    rw [heq]
    constructor
    · exact h.home
    · intro name p hp hne
      have hname : r.proc ≠ name := hne { r with depth := Program.depthAfter r.depth l } rfl
      rw [Scope.find?_append, if_neg hname.symm] at hp
      exact hothers name p hp hname
    · intro r' hr'
      cases hr'
      refine ⟨{ q with body := q.body.push l }, Program.depthAfter d l, ?_, ?_, ?_⟩
      · rw [Scope.find?_append, if_pos rfl, hq]
        rfl
      · -- the recording counts its own procedure as well
        show Program.depthAfter r.depth l = Program.depthAfter d l + 1
        rw [hdepth, Program.depthAfter_succ hpos]
      · rw [Array.toList_push]
        exact hopen.concat hpos

/-- The activation of a procedure knows only what its home knows. -/
theorem orderly_ofCall {depth : Nat} {p : Procedure} {home : List Scope} {args : List Value}
    {result : String} (hhome : ∀ s ∈ home, s.Balanced) :
    (ofCall depth p home args result).Orderly := by
  constructor
  · exact hhome
  · intro name q hq
    cases hq
  · intro r hr
    cases hr

theorem Does.orderly {sig : Signal} (hd : a.Does limit s l (.signal a' s' sig)) (h : a.Orderly)
    (hquiet : a.recording = none) : a'.Orderly := by
  cases hd with
  | @define name arity _ => exact h.define hquiet name arity
  | _ => exact h.congr rfl rfl rfl

end Activation

namespace Machine

variable {cfg : Config} {m m' m₀ : Machine} {l : Line}

/-- Every activation knows balanced procedures, and who waits records nothing. -/
structure Orderly (m : Machine) : Prop where
  current : m.current.Orderly
  waiting : ∀ c ∈ m.callers, c.Orderly ∧ c.recording = none

/-- What runs after a step knows balanced procedures. -/
theorem Orderly.current_step (h : m.Orderly) (hs : m.step cfg = .next m') :
    m'.current.Orderly := by
  have hcaller : ∀ {c : Activation} {rest : List Activation}, m.callers = c :: rest →
      c.Orderly := by
    intro c rest hc
    exact (h.waiting c (by simp [hc])).1
  have hresume : ∀ (c : Activation) (result : String) (v : Option Value), c.Orderly →
      (resume c result v).Orderly := by
    intro c result v hc
    have hcont := Activation.continues_resume c result v
    exact hc.congr hcont.home (Activation.resume_scope c result v)
      (Activation.resume_recording c result v)
  cases takes_of_step hs with
  | @fallOff c _ _ hc => exact hresume c m.current.result none (hcaller hc)
  | @record l _ _ hr => exact (h.current.record hr l).congr rfl rfl rfl
  | quiet hl he =>
    have ha := (does_of_effect he).orderly h.current hl.quiet
    exact ha.congr rfl rfl rfl
  | enter hl he =>
    -- the home of the callee is a part of the scopes of its caller, which is not recording
    obtain ⟨p, home, result, ⟨_, _, hp⟩, _, hstate⟩ := enters_of_effect hl he
    rw [hstate]
    apply Activation.orderly_ofCall
    intro s hs
    exact h.current.balanced hl.quiet s ((Scope.resolve?_suffix hp).subset hs)
  | @ret _ v c _ _ _ hc => exact hresume c m.current.result (some v) (hcaller hc)
  | jump | fault | print => exact h.current.congr rfl rfl rfl
  | sinkFault _ _ _ hc => exact (hcaller hc).congr rfl rfl rfl

theorem Orderly.step (h : m.Orderly) (hs : m.step cfg = .next m') : m'.Orderly := by
  refine ⟨h.current_step hs, waiting_of_step hs h.waiting ?_⟩
  intro p home result henter
  obtain ⟨hl, _, _⟩ := henter.calls
  exact ⟨h.current.congr rfl rfl rfl, hl.quiet⟩

theorem orderly_kept : Engine.Kept Orderly where
  initial k := by
    constructor
    · constructor
      · intro s hs
        cases hs
      · intro name p hp
        cases hp
      · intro r hr
        cases hr
    · intro c hc
      cases hc
  launch inputs p h := ⟨h.current.congr rfl rfl rfl, h.waiting⟩
  step h hs := h.step hs
  stop {_ m m'} h hstop := by
    obtain ⟨hcur, hcallers, -⟩ := hstop.spec
    constructor
    · rw [hcur]
      rcases List.mem_cons.mp m.bottom_mem with hbottom | hbottom
      · rw [hbottom]
        exact h.current
      · exact (h.waiting _ hbottom).1
    · rw [hcallers]
      intro c hc
      cases hc

end Machine

/-! ## The two scans -/

namespace Activation

variable {limit : Nat} {a a' : Activation} {s s' : Store} {l : Line}

/-- The recording `r` goes on since the line at `first`, and has taken all lines behind it. -/
structure Records (a : Activation) (r : Recording) (first arity : Nat) : Prop where
  lt : first < a.pc
  begins : ∃ l, a.program[first]? = some l ∧ l.instr = .ok (.beginFunc r.proc arity)
  outside : a.program.staticDepth first = 0
  inside : ∀ i, first < i → i ≤ a.pc → 0 < a.program.staticDepth i
  depth : r.depth = a.program.staticDepth a.pc
  body : a.scope.find? r.proc = some ⟨r.proc, arity, a.program.extract (first + 1) a.pc⟩

/-- An activation stands at its line as the text of its program says: outside of all procedures, or
recording the one it is in. -/
structure Aligned (a : Activation) : Prop where
  labels : a.labels = Program.labels a.program
  quiet : a.recording = none → a.program.staticDepth a.pc = 0
  recorded : ∀ r, a.recording = some r → ∃ first arity, a.Records r first arity

theorem Aligned.congr (h : a.Aligned) (hlabels : a'.labels = a.labels)
    (hprog : a'.program = a.program) (hpc : a'.pc = a.pc) (hscope : a'.scope = a.scope)
    (hrec : a'.recording = a.recording) : a'.Aligned := by
  constructor
  · rw [hlabels, hprog]
    exact h.labels
  · rw [hrec, hprog, hpc]
    exact h.quiet
  · intro r hr
    rw [hrec] at hr
    obtain ⟨first, arity, hrecs⟩ := h.recorded r hr
    refine ⟨first, arity, ?_⟩
    constructor
    · rw [hpc]
      exact hrecs.lt
    · rw [hprog]
      exact hrecs.begins
    · rw [hprog]
      exact hrecs.outside
    · rw [hprog, hpc]
      exact hrecs.inside
    · rw [hprog, hpc]
      exact hrecs.depth
    · rw [hprog, hpc, hscope]
      exact hrecs.body

/-- An activation that starts a program, and records nothing. -/
theorem aligned_start (hlabels : a.labels = Program.labels a.program) (hpc : a.pc = 0)
    (hquiet : a.recording = none) : a.Aligned := by
  constructor
  · exact hlabels
  · intro _
    rw [hpc, Program.staticDepth_zero]
  · intro r hr
    rw [hquiet] at hr
    cases hr

/-- An activation that goes on at a line outside of all procedures. -/
theorem Aligned.moveTo {pc : Nat} (h : a.Aligned) (hquiet : a.recording = none)
    (hpc : a.program.staticDepth pc = 0) : Aligned { a with pc := pc } := by
  constructor
  · exact h.labels
  · intro _
    exact hpc
  · intro r hr
    have hsome : a.recording = some r := hr
    rw [hquiet] at hsome
    cases hsome

/-- Outside of all procedures, a line that begins none is followed by such a line. -/
theorem Aligned.advance (h : a.Aligned) (hl : a.program[a.pc]? = some l)
    (hquiet : a.recording = none) (ho : l.opens = false) : a.advance.Aligned := by
  apply h.moveTo hquiet
  rw [Program.staticDepth_succ hl, h.quiet hquiet]
  simp [Program.depthAfter, ho]

/-- A jump leads to a label. -/
theorem Does.label_of_jump {position : Nat}
    (hd : a.Does limit s l (.signal a' s' (.jump position))) :
    ∃ label, a.labels.lookup? (Text.Utf8.encode label) = some position := by
  cases hd with
  | jump _ hp => exact ⟨_, hp⟩

/-- A line that ends in a signal other than to go on begins no procedure. -/
theorem not_opens_of_signal {sig : Signal} (he : a.effect limit s l = .signal a' s' sig)
    (hsig : sig ≠ .next) : l.opens = false := by
  cases ho : l.opens with
  | false => rfl
  | true =>
    obtain ⟨name, arity, hl⟩ := Line.opens_iff.mp ho
    simp only [effect, hl, execute] at he
    cases he
    exact absurd rfl hsig

/-- The recording begins behind the line that begins the procedure. -/
theorem Aligned.define {name : String} {arity : Nat} (h : a.Aligned)
    (hl : a.program[a.pc]? = some l) (hquiet : a.recording = none)
    (hinstr : l.instr = .ok (.beginFunc name arity)) :
    Aligned (Activation.advance { a with
      scope := a.scope.define ⟨name, arity, #[]⟩, recording := some ⟨name, 1⟩ }) := by
  have ho : l.opens = true := Line.opens_iff.mpr ⟨name, arity, hinstr⟩
  have hzero := h.quiet hquiet
  have hone : a.program.staticDepth (a.pc + 1) = 1 := by
    rw [Program.staticDepth_succ hl, hzero, Program.depthAfter_of_opens _ ho]
  constructor
  · exact h.labels
  · intro hr
    cases hr
  · intro r hr
    cases hr
    refine ⟨a.pc, arity, ?_⟩
    constructor
    case lt => exact Nat.lt_succ_self a.pc
    case begins => exact ⟨l, hl, hinstr⟩
    case outside => exact hzero
    case inside =>
      intro i hlt hle
      have hi : i = a.pc + 1 := Nat.le_antisymm hle hlt
      show 0 < a.program.staticDepth i
      rw [hi, hone]
      exact Nat.one_pos
    case depth => exact hone.symm
    case body =>
      show (a.scope.define ⟨name, arity, #[]⟩).find? name = _
      -- no line has been recorded yet
      have hempty : a.program.extract (a.pc + 1) (a.pc + 1) = #[] :=
        Array.extract_empty_of_stop_le_start (Nat.le_refl _)
      rw [Scope.find?_define, if_pos rfl]
      exact congrArg (fun body => some (Procedure.mk name arity body)) hempty.symm

/-- Outside of all procedures a line that does its work in place leads to the next line, and one
that begins a procedure begins to record it. -/
theorem Aligned.quietly (h : a.Aligned) (hl : a.program[a.pc]? = some l)
    (hquiet : a.recording = none) (he : a.effect limit s l = .signal a' s' .next) :
    a'.advance.Aligned := by
  have hd := does_effect limit a s l
  rw [he] at hd
  cases hd with
  | define hcore => exact h.define hl hquiet (Line.instr_of_core hcore rfl)
  | pass =>
    cases ho : l.opens with
    | false => exact h.advance hl hquiet ho
    | true =>
      -- it would have begun to record
      obtain ⟨name, arity, hinstr⟩ := Line.opens_iff.mp ho
      simp only [effect, hinstr, execute, Effect.signal.injEq] at he
      have hrec := congrArg Activation.recording he.1
      rw [hquiet] at hrec
      cases hrec
  | param hcore =>
    have ho := Line.not_opens_of_core hcore rfl
    exact (h.advance hl hquiet ho).congr rfl rfl rfl rfl rfl
  | assign hcore =>
    have ho := Line.not_opens_of_core hcore rfl
    exact (h.advance hl hquiet ho).congr rfl rfl rfl rfl rfl

/-- A line that ends a recording is the one that ends the recorded procedure. -/
theorem Records.matching {r : Recording} {first arity : Nat} (h : a.Records r first arity)
    (hl : a.program[a.pc]? = some l) (hc : l.closes = true) (hd : r.depth ≤ 1) :
    a.program.Matching first a.pc := by
  obtain ⟨b, hb, hbegin⟩ := h.begins
  constructor
  case lt => exact h.lt
  case opens => exact ⟨b, hb, Line.opens_iff.mpr ⟨r.proc, arity, hbegin⟩⟩
  case closes => exact ⟨l, hl, hc⟩
  case inside =>
    intro i hlt hle
    rw [h.outside]
    exact h.inside i hlt hle
  case back =>
    rw [Program.staticDepth_succ hl, ← h.depth, Program.depthAfter_of_closes _ hc, h.outside]
    omega

/-- The recording goes on with a line that does not end its procedure. -/
theorem Records.append {r : Recording} {first arity : Nat} (h : a.Records r first arity)
    (hl : a.program[a.pc]? = some l) (hgo : l.closes = true → 1 < r.depth) :
    Records (Activation.advance { a with
        recording := some { r with depth := Program.depthAfter r.depth l }
        scope := a.scope.append r.proc l })
      { r with depth := Program.depthAfter r.depth l } first arity := by
  have hnext : a.program.staticDepth (a.pc + 1) = Program.depthAfter r.depth l := by
    rw [Program.staticDepth_succ hl, h.depth]
  -- the procedure itself is still open behind the line
  have hopen : 0 < Program.depthAfter r.depth l := by
    have hpos := h.inside a.pc h.lt (Nat.le_refl _)
    rw [← h.depth] at hpos
    obtain ⟨d, hd⟩ := Nat.exists_eq_add_of_lt hpos
    have hrest : l.closes = true → 0 < d := by
      intro hc
      have hlt := hgo hc
      omega
    have hsucc := Program.depthAfter_succ hrest
    rw [hd, Nat.zero_add, hsucc]
    exact Nat.succ_pos _
  constructor
  case lt => exact Nat.lt_succ_of_lt h.lt
  case begins => exact h.begins
  case outside => exact h.outside
  case inside =>
    intro i hlt hle
    rcases Nat.lt_or_eq_of_le hle with hlt' | rfl
    · exact h.inside i hlt (Nat.le_of_lt_succ hlt')
    · show 0 < a.program.staticDepth (a.pc + 1)
      rw [hnext]
      exact hopen
  case depth => exact hnext.symm
  case body =>
    show (a.scope.append r.proc l).find? r.proc = _
    have hextract : a.program.extract (first + 1) (a.pc + 1) =
        (a.program.extract (first + 1) a.pc).push l := by
      obtain ⟨hlt, hget⟩ := Array.getElem?_eq_some_iff.mp hl
      have hle : first + 1 ≤ a.pc := h.lt
      rw [← hget, Array.push_extract_getElem hlt, Nat.min_eq_left hle]
    rw [Scope.find?_append, if_pos rfl, h.body]
    simp [Activation.advance, hextract]

/-- Recording keeps to the text. -/
theorem Aligned.record {r : Recording} (h : a.Aligned) (hl : a.program[a.pc]? = some l)
    (hr : a.recording = some r) : (a.record r l).advance.Aligned := by
  obtain ⟨first, arity, hrecs⟩ := h.recorded r hr
  rcases a.record_cases r l with ⟨hc, hd, heq⟩ | ⟨hgo, heq⟩
  · rw [heq]
    constructor
    · exact h.labels
    · intro _
      have hback := (hrecs.matching hl hc hd).back
      rw [hrecs.outside] at hback
      exact hback
    · intro r' hr'
      cases hr'
  · rw [heq]
    constructor
    · exact h.labels
    · intro hr'
      cases hr'
    · intro r' hr'
      cases hr'
      exact ⟨first, arity, hrecs.append hl hgo⟩

end Activation

namespace Machine

variable {cfg : Config} {m m' m₀ : Machine} {l : Line}

/-- Every activation stands at its line as the text says, or will do so when its call has ended;
and all but the one at the bottom run a balanced body. -/
structure Aligned (m : Machine) : Prop where
  current : m.current.Aligned
  waiting : ∀ c ∈ m.callers, c.advance.Aligned
  bodies : m.activations.IsChain fun a _ => a.program.Balanced

/-- What runs after a step stands as the text says. -/
theorem Aligned.current_step (h : m.Aligned) (hs : m.step cfg = .next m') :
    m'.current.Aligned := by
  have hcaller : ∀ {c : Activation} {rest : List Activation}, m.callers = c :: rest →
      c.advance.Aligned := by
    intro c rest hc
    exact h.waiting c (by simp [hc])
  have hresume : ∀ (c : Activation) (result : String) (v : Option Value), c.advance.Aligned →
      (resume c result v).Aligned := by
    intro c result v hc
    have hcont := Activation.continues_resume c result v
    exact hc.congr hcont.labels hcont.program (Activation.resume_pc c result v)
      (Activation.resume_scope c result v) (Activation.resume_recording c result v)
  cases takes_of_step hs with
  | @fallOff c _ _ hc => exact hresume c m.current.result none (hcaller hc)
  | record hl hr => exact h.current.record hl hr
  | quiet hl he => exact h.current.quietly hl.line hl.quiet he
  | jump hl he =>
    -- the label was found by the scan of the text
    obtain ⟨label, hp⟩ := (does_of_effect he).label_of_jump
    rw [h.current.labels] at hp
    exact h.current.moveTo hl.quiet (Program.visible_of_lookup? hp).depth
  | enter hl he =>
    obtain ⟨p, home, result, _, _, hstate⟩ := enters_of_effect hl he
    rw [hstate]
    exact Activation.aligned_start rfl rfl rfl
  | @ret _ v c _ _ _ hc => exact hresume c m.current.result (some v) (hcaller hc)
  | fault hl he | print hl he =>
    have ho := Activation.not_opens_of_signal he (by simp)
    exact h.current.advance hl.line hl.quiet ho
  | sinkFault _ _ _ hc => exact hcaller hc

theorem Aligned.step (h : m.Aligned) (hord : m.Orderly) (hs : m.step cfg = .next m') :
    m'.Aligned := by
  refine ⟨h.current_step hs, waiting_of_step hs h.waiting ?_, isChain_of_step hs ?_ ?_ h.bodies⟩
  · -- a call is no line that begins a procedure
    intro p home result henter
    obtain ⟨hl, hcore, _⟩ := henter.calls
    have ho := Line.not_opens_of_core hcore rfl
    exact (h.current.advance hl.line hl.quiet ho).congr rfl rfl rfl rfl rfl
  · intro a a' _ hcont hbal
    rw [hcont.program]
    exact hbal
  · -- the procedure was found in a scope whose procedures are all complete
    intro p home result henter
    obtain ⟨⟨hl, _, hp⟩, _, rfl⟩ := henter
    obtain ⟨s, hs, hfind⟩ := Scope.find?_of_resolve? hp
    exact hord.current.balanced hl.quiet s hs _ p hfind

/-! ## Starting with a recording -/

/-- A single line that is recorded makes no call. -/
theorem callers_of_recording {r : Recording} (hc : m₀.callers = [])
    (hsize : m₀.current.program.size = 1) (hr : m₀.current.recording = some r)
    (hsteps : Steps cfg m₀ m) : m.callers = [] := by
  -- the line is recorded in the first step, and the next one ends the run
  let P : Machine → Prop := fun m => m.callers = [] ∧ m.current.program.size = 1 ∧
    (m.current.pc = 0 → m.current.recording ≠ none)
  have hinv : P m := by
    refine Steps.invariant (P := P) ?_ hsteps ⟨hc, hsize, fun _ => by simp [hr]⟩
    rintro m m' ⟨hc, hsize, hrec⟩ hs
    have hline : ∀ {l : Line}, m.current.program[m.current.pc]? = some l →
        m.current.recording ≠ none := by
      intro l hl
      obtain ⟨hlt, _⟩ := Array.getElem?_eq_some_iff.mp hl
      exact hrec (by omega)
    cases takes_of_step hs with
    | record =>
      refine ⟨hc, ?_, fun hpc => ?_⟩
      · rw [← hsize, Activation.advance, (m.current.continues_record _).program]
      · cases hpc
    | fallOff _ hc' | ret _ _ hc' | sinkFault _ _ _ hc' =>
      rw [hc] at hc'
      cases hc'
    | quiet hl | jump hl | enter hl | fault hl | print hl => exact absurd hl.quiet (hline hl.line)
  exact hinv.1

end Machine

namespace Engine

open Machine

variable {e : Engine} {m₀ : Machine}

theorem Starts.callers (he : e.Session) (h : e.Starts m₀) : m₀.callers = [] := by
  cases h with
  | exec inputs => rfl
  | runLine line inputs clear =>
    cases clear with
    | true => rfl
    | false => exact he.callers

/-- A run that begins without a recording begins as the text says. -/
theorem Starts.aligned (he : e.Session) (h : e.Starts m₀) (hquiet : m₀.current.recording = none) :
    m₀.Aligned := by
  have hcallers := h.callers he
  have hstart : m₀.current.labels = Program.labels m₀.current.program ∧ m₀.current.pc = 0 := by
    cases h <;> exact ⟨rfl, rfl⟩
  constructor
  · exact Activation.aligned_start hstart.1 hstart.2 hquiet
  · rw [hcallers]
    intro c hc
    cases hc
  · unfold Machine.activations
    rw [hcallers]
    exact List.isChain_singleton _

/-- Only a single line is run with a recording from before. -/
theorem Starts.single {r : Recording} (h : e.Starts m₀) (hr : m₀.current.recording = some r) :
    m₀.current.program.size = 1 := by
  cases h with
  | exec inputs => cases hr
  | runLine line inputs clear => rfl

end Engine

namespace Machine

variable {cfg : Config} {m m' m₀ : Machine} {l : Line}

/-! ## Recorded and not executed -/

/-- The running activation executes and records as the text of its program says. -/
structure KeepsToText (cfg : Config) (m : Machine) : Prop where
  /-- what is executed stands outside of all procedures -/
  executed : ∀ l, m.At l → m.current.program.staticDepth m.current.pc = 0
  /-- a line is recorded inside of as many procedures as the text says -/
  recorded : ∀ l r, m.current.program[m.current.pc]? = some l → m.current.recording = some r →
    r.depth = m.current.program.staticDepth m.current.pc
  /-- a recording that ends has taken the lines between the beginning of its procedure and the
  matching end -/
  ended : ∀ l r m', m.current.program[m.current.pc]? = some l → m.current.recording = some r →
    m.step cfg = .next m' → m'.current.recording = none →
    ∃ first b arity, m.current.program.Matching first m.current.pc ∧
      m.current.program[first]? = some b ∧ b.instr = .ok (.beginFunc r.proc arity) ∧
      m'.current.scope.find? r.proc =
        some ⟨r.proc, arity, m.current.program.extract (first + 1) m.current.pc⟩

theorem step_of_recording {r : Recording} (hl : m.current.program[m.current.pc]? = some l)
    (hr : m.current.recording = some r) :
    m.step cfg = .next { m with current := (m.current.record r l).advance } := by
  simp only [step, hl, stepLine, hr]

theorem Aligned.keepsToText (h : m.Aligned) : m.KeepsToText cfg := by
  constructor
  case executed =>
    intro l hl
    exact h.current.quiet hl.quiet
  case recorded =>
    intro l r _ hr
    obtain ⟨first, arity, hrecs⟩ := h.current.recorded r hr
    exact hrecs.depth
  case ended =>
    intro l r m' hl hr hs hend
    rw [step_of_recording hl hr] at hs
    cases hs
    obtain ⟨first, arity, hrecs⟩ := h.current.recorded r hr
    obtain ⟨b, hb, hbegin⟩ := hrecs.begins
    have hquiet : (m.current.record r l).recording = none := hend
    rcases m.current.record_cases r l with ⟨hc, hd, heq⟩ | ⟨_, heq⟩
    · refine ⟨first, b, arity, hrecs.matching hl hc hd, hb, hbegin, ?_⟩
      show (m.current.record r l).scope.find? r.proc = _
      rw [heq]
      exact hrecs.body
    · rw [heq] at hquiet
      cases hquiet

/-- The running activation is that of a procedure, so its body is balanced. -/
theorem Aligned.balanced (h : m.Aligned) (hc : m.callers ≠ []) :
    m.current.program.Balanced := by
  have hbodies := h.bodies
  obtain ⟨c, rest, hcallers⟩ := List.exists_cons_of_ne_nil hc
  unfold activations at hbodies
  rw [hcallers, List.isChain_cons_cons] at hbodies
  exact hbodies.1

/-- A procedure that records goes on: its body does not end before the recording. -/
theorem Aligned.goes_on {r : Recording} (h : m.Aligned) (hc : m.callers ≠ [])
    (hr : m.current.recording = some r) :
    ∃ m', m.step cfg = .next m' ∧ m'.callers = m.callers := by
  obtain ⟨first, arity, hrecs⟩ := h.current.recorded r hr
  have hpos := hrecs.inside m.current.pc hrecs.lt (Nat.le_refl _)
  cases hl : m.current.program[m.current.pc]? with
  | none =>
    have hend := (h.balanced hc).staticDepth_end hl
    omega
  | some l => exact ⟨_, step_of_recording hl hr, rfl⟩

theorem closes_of_strayEnd {a : Activation} {s : Store}
    (he : m.effect cfg l = .signal a s (.fault .strayEnd)) : l.closes = true := by
  unfold effect Activation.effect at he
  split at he
  · cases he
  · rename_i ins hins
    have hcore := Activation.endFunc_of_strayEnd he
    have hl : l.core? = some .endFunc := by simp [Line.core?, hins, Except.toOption, hcore]
    exact Line.closes_iff.mpr (Line.instr_of_core hl rfl)

/-- A procedure never comes across an end that is not its own. -/
theorem Aligned.no_strayEnd (h : m.Aligned) (hc : m.callers ≠ []) (hl : m.At l) (a : Activation)
    (s : Store) : m.effect cfg l ≠ .signal a s (.fault .strayEnd) := by
  intro he
  have hclosed := closes_of_strayEnd he
  rw [(h.balanced hc).not_closes hl.line (h.current.quiet hl.quiet)] at hclosed
  cases hclosed

/-- In every run of a session, an activation that began without a recording executes only lines
outside of all procedures, and records each procedure with the lines of its body.  So every
procedure that can be called has a balanced body, and the activation of a procedure neither ends
while it records nor raises the fault of a stray end. -/
theorem recorded_not_executed {e : Engine} (he : e.Session) (hstart : e.Starts m₀)
    (hsteps : Steps e.config m₀ m) :
    ((m.callers = [] → m₀.current.recording = none) → m.KeepsToText e.config) ∧
      (m.current.recording = none → ∀ name p home,
        Scope.resolve? name m.current.scopes = some (p, home) → Program.Balanced p.body) ∧
      (m.callers ≠ [] →
        (∀ r, m.current.recording = some r →
          ∃ m', m.step e.config = .next m' ∧ m'.callers = m.callers) ∧
        ∀ l a s, m.At l → m.effect e.config l ≠ .signal a s (.fault .strayEnd)) ∧
      ∀ c ∈ m.callers, c.recording = none := by
  have hord : m.Orderly := orderly_kept.reached he ⟨m₀, hstart, hsteps⟩
  -- a run with calls has begun without a recording
  have haligned : (m.callers = [] → m₀.current.recording = none) → m.Aligned := by
    intro hquiet
    cases hr : m₀.current.recording with
    | some r =>
      have hc := callers_of_recording (hstart.callers he) (hstart.single hr) hr hsteps
      rw [hquiet hc] at hr
      cases hr
    | none =>
      have hord₀ : m₀.Orderly := orderly_kept.starts (orderly_kept.session he) hstart
      have hboth : m.Orderly ∧ m.Aligned := by
        refine Steps.invariant (P := fun m => m.Orderly ∧ m.Aligned) ?_ hsteps
          ⟨hord₀, hstart.aligned he hr⟩
        rintro m m' ⟨hord, hal⟩ hs
        exact ⟨hord.step hs, hal.step hord hs⟩
      exact hboth.2
  refine ⟨?_, ?_, ?_, fun c hc => (hord.waiting c hc).2⟩
  · intro hquiet
    exact (haligned hquiet).keepsToText
  · intro hquiet name p home hp
    obtain ⟨s, hs, hfind⟩ := Scope.find?_of_resolve? hp
    exact hord.current.balanced hquiet s hs name p hfind
  · intro hc
    have hal := haligned fun hnil => absurd hnil hc
    exact ⟨fun r hr => hal.goes_on hc hr, fun l a s hl => hal.no_strayEnd hc hl a s⟩

/-- A program that jumps over a procedure and back to it.  The procedure has another one inside,
whose end has the label of a line outside. -/
def jumpingBack : Program := .ofStrings
  ["goto over", "again: BeginFunc f, 0", "BeginFunc g, 0", "over: EndFunc", "call g, 0", "EndFunc",
    "call f, 0", "over: goto again"]

/-- The state of `jumpingBack` in which the outer procedure has been called and records the inner
one. -/
def jumpingBackCall : Machine := ((Engine.new {}).run jumpingBack [] 9).1.machine

/-- The recording in a call keeps to the text of the body, and the call goes on after it. -/
theorem recorded_not_executed_in_call :
    jumpingBackCall.current.recording = some ⟨"g", 1⟩ ∧ jumpingBackCall.KeepsToText {} ∧
      ∃ m', jumpingBackCall.step {} = .next m' ∧ m'.callers = jumpingBackCall.callers := by
  have hfacts : ((Engine.new {}).run jumpingBack [] 9).2 = .running ∧
      jumpingBackCall.current.recording = some ⟨"g", 1⟩ ∧
      jumpingBackCall.callers.length = 1 := by
    decide +kernel
  obtain ⟨hrun, hrec, hlen⟩ := hfacts
  have hsession : ((Engine.new {}).load jumpingBack).Session := .load (.new {}) jumpingBack
  have hreached : ((Engine.new {}).load jumpingBack).Reached jumpingBackCall :=
    Engine.reached_run (.new {}) jumpingBack [] 9 hrun
  obtain ⟨m₀, hstart, hsteps⟩ := hreached
  have hcall : jumpingBackCall.callers ≠ [] := by
    intro hnil
    rw [hnil] at hlen
    cases hlen
  obtain ⟨htext, -, hcallee, -⟩ := recorded_not_executed hsession hstart hsteps
  exact ⟨hrec, htext fun hnil => absurd hnil hcall, (hcallee hcall).1 _ hrec⟩

end Machine

end AddressCode
