import AddressCode.Proofs.Halting
import AddressCode.Proofs.Recording

/-!
# AddressCode.Proofs.LineByLine — running a program one line at a time

The lines of a program can be run one after the other, each as a program of its own, in the state
that the lines before have left.  If no line of the top level jumps or returns, this comes to the
same as running the whole program.

* `Machine.Beside` relates a state of the whole run to one of the run of a single line: they differ
  in the text that the top level runs and in nothing else.
* `Beside.step` says that both take the same step, up to the end of the line; what the top level
  delivers has the number of its line in one of them and the number one in the other.
* `Beside.run` carries this through the run of one line, and `passes_on` from line to line.

Inside of a call the two states have the same running activation, so that procedures may jump and
return as they like.
-/

namespace AddressCode

/-! ## What is delivered, and from where -/

namespace Event

/-- The number of the line that an event comes from. -/
def line : Event → Int
  | .printed r _ => r.line
  | .faulted f => f.line

/-- The name of the procedure that an event comes from. -/
def proc : Event → String
  | .printed r _ => r.proc
  | .faulted f => f.proc

/-- An event with another line. -/
def onLine (line : Int) : Event → Event
  | .printed r text => .printed { r with line := line } text
  | .faulted f => .faulted { f with line := line }

end Event

/-- An event, and whether the top level has delivered it.  The name alone does not tell, since a
procedure may have the name of the top level. -/
structure Delivery where
  event : Event
  top : Bool

namespace Delivery

/-- The event as the run of a single line delivers it. -/
def alone (d : Delivery) : Event := if d.top then d.event.onLine 1 else d.event

/-- If an event comes from the top level, it comes from the line at position `i`. -/
def From (i : Nat) (d : Delivery) : Prop :=
  d.top = true → d.event.proc = rootName ∧ d.event.line = (i : Int) + 1

end Delivery

namespace Machine

/-- The events of `m'` that are not yet among those of `m`. -/
def news (m m' : Machine) : List Delivery :=
  (m'.events.toList.drop m.events.size).map fun e => ⟨e, m.callers.isEmpty⟩

/-- What is delivered by up to `n` steps. -/
def deliveries (cfg : Config) : Nat → Machine → List Delivery
  | 0, _ => []
  | n + 1, m =>
    m.news (m.step cfg).state ++
      match m.step cfg with
      | .next m' => deliveries cfg n m'
      | _ => []

section News

variable {w w' s s' : Machine}

theorem news_of_silent (h : w'.events = w.events) : w.news w' = [] := by
  simp [news, h]

theorem news_of_push {e : Event} (h : w'.events = w.events.push e) :
    w.news w' = [⟨e, w.callers.isEmpty⟩] := by
  simp [news, h]

/-- What the step of `w` to `w'` delivers is delivered by the one of `s` to `s'` as well, with the
line changed if it comes from the line at position `i` of the top level. -/
structure Tells (i : Nat) (w w' s s' : Machine) : Prop where
  alone : s.Delivers s' ((w.news w').map (·.alone))
  lines : ∀ d ∈ w.news w', d.From i

variable {i : Nat}

theorem tells_nothing (hw : w'.events = w.events) (hs : s'.events = s.events) :
    Tells i w w' s s' := by
  constructor
  · simp [Delivers, news_of_silent hw, hs]
  · simp [news_of_silent hw]

/-- A call delivers the same in both. -/
theorem tells_call {e : Event} (hc : w.callers.isEmpty = false) (hw : w'.events = w.events.push e)
    (hs : s'.events = s.events.push e) : Tells i w w' s s' := by
  constructor
  · simp [Delivers, news_of_push hw, hs, Delivery.alone, hc]
  · simp [news_of_push hw, Delivery.From, hc]

/-- The top level delivers an event of its line. -/
theorem tells_top {e : Event} (hc : w.callers.isEmpty = true) (hw : w'.events = w.events.push e)
    (hs : s'.events = s.events.push (e.onLine 1)) (hproc : e.proc = rootName)
    (hline : e.line = (i : Int) + 1) : Tells i w w' s s' := by
  constructor
  · simp [Delivers, news_of_push hw, hs, Delivery.alone, hc]
  · simp [news_of_push hw, Delivery.From, hproc, hline]

end News

end Machine

/-! ## A line in another text -/

/-- Does a line jump or return, if its conditions are true? -/
def Line.departs (l : Line) : Bool :=
  match l.core? with
  | some (.goto _) | some (.ret _) => true
  | _ => false

/-- A signal with another line. -/
def Signal.onLine (line : Int) : Signal → Signal
  | .print v _ => .print v line
  | sig => sig

/-- An activation at the position `pc` of the text `p`. -/
def Activation.onText (p : Program) (pc : Nat) (a : Activation) : Activation :=
  { a with program := p, labels := p.labels, pc := pc }

/-- An effect on an activation at the position `pc` of the text `p`. -/
def Effect.onText (p : Program) (pc : Nat) : Effect → Effect
  | .signal a s sig => .signal (a.onText p pc) s (sig.onLine ((pc : Int) + 1))
  | .enter a callee => .enter (a.onText p pc) callee
  | .overflow => .overflow

namespace Activation

variable {limit : Nat} {a : Activation} {s : Store} {l : Line}

section OnText

variable (p : Program) (pc : Nat) (a : Activation)

@[simp]
theorem onText_heap : (a.onText p pc).heap = a.heap := rfl

@[simp]
theorem onText_scopes : (a.onText p pc).scopes = a.scopes := rfl

@[simp]
theorem onText_frame : (a.onText p pc).frame = a.frame := rfl

@[simp]
theorem onText_scope : (a.onText p pc).scope = a.scope := rfl

@[simp]
theorem onText_params : (a.onText p pc).params = a.params := rfl

@[simp]
theorem onText_recording : (a.onText p pc).recording = a.recording := rfl

end OnText

/-- The checks of a call are made of scopes, depth and parameters. -/
theorem call_onText (p : Program) (pc : Nat) (proc : String) (count : Option Nat)
    (result : Option String) :
    (a.onText p pc).call limit s proc count result =
      (a.call limit s proc count result).onText p pc := by
  simp only [call_eq, onText_scopes, onText_frame, onText_params]
  split
  · rfl
  · split
    · rfl
    · by_cases hd : limit ≤ a.frame.depth
      · simp only [hd, if_true]
        rfl
      · simp only [hd, if_false]
        split <;> rfl

/-- Only a jump asks for the text around an instruction, and only a record for its position.  The
induction follows the conditions in front of the core. -/
theorem execute_onText (p : Program) (pc : Nat) (ins : Instr)
    (h : ∀ label, ins.core ≠ .goto label) :
    (a.onText p pc).execute limit s ins = (a.execute limit s ins).onText p pc := by
  induction ins with
  | noop | endFunc | beginFunc name arity => rfl
  | goto label => exact absurd rfl (h label)
  | ifThen cond action ih =>
    simp only [execute, onText_heap]
    split
    · rfl
    · split
      · exact ih h
      · rfl
  | print x | expression x =>
    simp only [execute, onText_heap]
    split <;> rfl
  | ret x =>
    cases x with
    | none => rfl
    | some x =>
      simp only [execute, onText_heap]
      split <;> rfl
  | call proc count result => exact call_onText p pc proc count result
  | param x =>
    simp only [execute, onText_heap, onText_params]
    split
    · rfl
    · split <;> rfl
  | assign target x =>
    simp only [execute_assign, onText_heap]
    split
    · rfl
    · split <;> rfl

/-- A line that does not jump does the same in another text. -/
theorem effect_onText (p : Program) (pc : Nat) (h : l.departs = false) :
    (a.onText p pc).effect limit s l = (a.effect limit s l).onText p pc := by
  unfold effect
  split
  · rfl
  · rename_i ins hins
    refine execute_onText p pc ins ?_
    intro label hcore
    simp [Line.departs, Line.core?, hins, Except.toOption, hcore] at h

theorem record_onText (p : Program) (pc : Nat) (r : Recording) :
    (a.onText p pc).record r l = (a.record r l).onText p pc := by
  unfold record
  split <;> rfl

/-- A line that does not jump or return does its work in place, prints, calls or fails. -/
theorem signal_of_not_departs {a' : Activation} {s' : Store} {sig : Signal}
    (h : l.departs = false) (he : a.effect limit s l = .signal a' s' sig) :
    sig = .next ∨ (∃ v, sig = .print v ((a.pc : Int) + 1)) ∨ ∃ c, sig = .fault c := by
  have hd := does_effect limit a s l
  rw [he] at hd
  cases hd with
  | pass | param | define | assign => exact Or.inl rfl
  | print => exact Or.inr (Or.inl ⟨_, rfl⟩)
  | fault => exact Or.inr (Or.inr ⟨_, rfl⟩)
  | leave hl | ret hl | jump hl => simp [Line.departs, hl] at h

end Activation

/-! ## The whole text and a single line -/

/-- `a` stands at the line `l` of the text `p`, at position `i`, or behind it; `b` is the same but
for its text, which is that line alone. -/
structure Activation.Beside (p : Program) (i : Nat) (l : Line) (k : Nat) (a b : Activation) :
    Prop where
  line : p[i]? = some l
  program : a.program = p
  pc : a.pc = i + k
  name : a.name = rootName
  same : b = a.onText #[l] k

namespace Activation

variable {limit : Nat} {p : Program} {i : Nat} {l : Line} {a a' b : Activation} {s s' : Store}

/-- What the line leaves in place of `a`, before it goes on. -/
theorem Beside.stay (h : a.Beside p i l 0 b) (ha : a.Continues a') (hpc : a'.pc = a.pc) :
    a'.Beside p i l 0 (a'.onText #[l] 0) :=
  ⟨h.line, ha.program.trans h.program, hpc.trans h.pc, ha.name.trans h.name, rfl⟩

/-- An activation that has dealt with its line stands behind it. -/
theorem Beside.advance (h : a.Beside p i l 0 b) : a.advance.Beside p i l 1 b.advance := by
  constructor
  · exact h.line
  · exact h.program
  · show a.pc + 1 = i + 1
    rw [h.pc, Nat.add_zero]
  · exact h.name
  · rw [h.same]
    rfl

/-- A caller that has got what its call returned stands behind its line. -/
theorem Beside.resume (h : a.Beside p i l 0 b) (result : String) (v : Option Value) :
    (Machine.resume a result v).Beside p i l 1 (Machine.resume b result v) := by
  have hcont := continues_resume a result v
  constructor
  · exact h.line
  · rw [hcont.program, h.program]
  · rw [resume_pc, h.pc]
  · rw [hcont.name, h.name]
  · rw [h.same]
    unfold Machine.resume
    split <;> rfl

end Activation

namespace Machine

/-- The stacks of a run of a text and of a run of its line: both are at the top level, in front of
the line or behind it, or they are inside of the same calls, which the line has made. -/
inductive Stacks (p : Program) (i : Nat) (l : Line) (w s : Machine) : Prop where
  | before (hw : w.callers = []) (hs : s.callers = [])
      (hcur : Activation.Beside p i l 0 w.current s.current)
      (hstay : w.current.recording = none → l.departs = false)
  | inside {above : List Activation} {a b : Activation} (hcur : s.current = w.current)
      (hw : w.callers = above ++ [a]) (hs : s.callers = above ++ [b])
      (hbottom : Activation.Beside p i l 0 a b)
  | behind (hw : w.callers = []) (hs : s.callers = [])
      (hcur : Activation.Beside p i l 1 w.current s.current)

/-- The state `w` of a run of the text `p` and the state `s` of a run of its line `l`. -/
structure Beside (p : Program) (i : Nat) (l : Line) (w s : Machine) : Prop where
  store : s.store = w.store
  delivered : s.delivered = w.delivered
  stack : Stacks p i l w s

variable {cfg : Config} {p : Program} {i : Nat} {l : Line} {w w' s s' : Machine}

/-- What the run of the text and that of the line do next. -/
inductive Together (p : Program) (i : Nat) (l : Line) (w s : Machine) : Step → Step → Prop where
  | next {w' s' : Machine} (h : Beside p i l w' s') (htells : Tells i w w' s s') :
      Together p i l w s (.next w') (.next s')
  | aborted : Together p i l w s (.aborted w) (.aborted s)
  /-- the single line is over, and the text goes on -/
  | passed {o : Step} (hw : w.callers = []) (hs : s.callers = [])
      (hcur : Activation.Beside p i l 1 w.current s.current) :
      Together p i l w s o (.done s ⟨.boolean true, false, none⟩)

/-- A call ends alike in both, whoever its caller is. -/
theorem Beside.leave {above : List Activation} {a b : Activation} (hstore : s.store = w.store)
    (hdel : s.delivered = w.delivered) (hcur : s.current = w.current)
    (hw : w.callers = above ++ [a]) (hs : s.callers = above ++ [b])
    (hbottom : Activation.Beside p i l 0 a b) (v : Option Value) :
    Together p i l w s (w.leave v) (s.leave v) := by
  cases above with
  | nil =>
    simp only [List.nil_append] at hw hs
    simp only [Machine.leave, hw, hs]
    refine .next ⟨hstore, hdel, .behind rfl rfl ?_⟩ (tells_nothing rfl rfl)
    show Activation.Beside p i l 1 (Machine.resume a w.current.result v)
      (Machine.resume b s.current.result v)
    rw [hcur]
    exact hbottom.resume w.current.result v
  | cons c rest =>
    simp only [List.cons_append] at hw hs
    simp only [Machine.leave, hw, hs]
    refine .next ⟨hstore, hdel, .inside ?_ rfl rfl hbottom⟩ (tells_nothing rfl rfl)
    show Machine.resume c s.current.result v = Machine.resume c w.current.result v
    rw [hcur]

/-- Inside of a call both do the same. -/
theorem Beside.step_inside (hgo : cfg.halt = false) (hsink : ∀ k, cfg.sinkFails k = false)
    {above : List Activation} {a b : Activation} (hstore : s.store = w.store)
    (hdel : s.delivered = w.delivered) (hcur : s.current = w.current)
    (hw : w.callers = above ++ [a]) (hs : s.callers = above ++ [b])
    (hbottom : Activation.Beside p i l 0 a b) :
    Together p i l w s (w.step cfg) (s.step cfg) := by
  have hcall : w.callers.isEmpty = false := by simp [hw]
  cases hend : w.current.program[w.current.pc]? with
  | none =>
    simp only [step, hcur, hend]
    exact Beside.leave hstore hdel hcur hw hs hbottom none
  | some l' =>
    cases hr : w.current.recording with
    | some r =>
      simp only [step, hcur, hend, stepLine, hr]
      exact .next ⟨hstore, hdel, .inside rfl hw hs hbottom⟩ (tells_nothing rfl rfl)
    | none =>
      have hlw : w.At l' := ⟨hend, hr⟩
      have hls : s.At l' := by
        constructor <;> rw [hcur]
        · exact hend
        · exact hr
      have heff : s.effect cfg l' = w.effect cfg l' := by
        unfold effect
        rw [hcur, hstore]
      rw [step_at cfg hlw, step_at cfg hls, heff]
      cases he : w.effect cfg l' with
      | overflow => exact .aborted
      | enter a' callee =>
        have hw' : a' :: w.callers = (a' :: above) ++ [a] := by rw [hw, List.cons_append]
        have hs' : a' :: s.callers = (a' :: above) ++ [b] := by rw [hs, List.cons_append]
        exact .next ⟨hstore, hdel, .inside rfl hw' hs' hbottom⟩ (tells_nothing rfl rfl)
      | signal a' s₁ sig =>
        cases sig with
        | next => exact .next ⟨rfl, hdel, .inside rfl hw hs hbottom⟩ (tells_nothing rfl rfl)
        | jump position =>
          exact .next ⟨rfl, hdel, .inside rfl hw hs hbottom⟩ (tells_nothing rfl rfl)
        | ret v =>
          obtain ⟨rfl, rfl⟩ := eq_of_signal he (by simp)
          have hsame : { s with current := w.current, store := w.store } = s := by
            rw [← hcur, ← hstore]
          simp only [handle, hsame]
          exact Beside.leave hstore hdel hcur hw hs hbottom (some v)
        | print v line =>
          simp only [handle, emit, hsink]
          exact .next ⟨rfl, congrArg (· + 1) hdel, .inside rfl hw hs hbottom⟩
            (tells_call hcall rfl rfl)
        | fault c =>
          simp only [handle, raise, hgo]
          exact .next ⟨rfl, hdel, .inside rfl hw hs hbottom⟩ (tells_call hcall rfl rfl)

/-- At the top level both deal with the line, which leads behind it or into a call. -/
theorem Beside.step_before (hgo : cfg.halt = false) (hsink : ∀ k, cfg.sinkFails k = false)
    (hstore : s.store = w.store) (hdel : s.delivered = w.delivered) (hw : w.callers = [])
    (hs : s.callers = []) (hcur : Activation.Beside p i l 0 w.current s.current)
    (hstay : w.current.recording = none → l.departs = false) :
    Together p i l w s (w.step cfg) (s.step cfg) := by
  have htop : w.callers.isEmpty = true := by simp [hw]
  have hlw : w.current.program[w.current.pc]? = some l := by
    rw [hcur.program, hcur.pc]
    exact hcur.line
  have hls : s.current.program[s.current.pc]? = some l := by
    rw [hcur.same]
    rfl
  cases hr : w.current.recording with
  | some r =>
    have hrs : s.current.recording = some r := by
      rw [hcur.same]
      exact hr
    simp only [step, hlw, hls, stepLine, hr, hrs]
    refine .next ⟨hstore, hdel, .behind hw hs ?_⟩ (tells_nothing rfl rfl)
    show Activation.Beside p i l 1 (w.current.record r l).advance (s.current.record r l).advance
    rw [hcur.same, Activation.record_onText]
    refine (hcur.stay (Activation.continues_record w.current r) ?_).advance
    unfold Activation.record
    split <;> rfl
  | none =>
    have hrs : s.current.recording = none := by
      rw [hcur.same]
      exact hr
    have hstay' := hstay hr
    have heff : s.effect cfg l = (w.effect cfg l).onText #[l] 0 := by
      unfold effect
      rw [hstore, hcur.same]
      exact Activation.effect_onText #[l] 0 hstay'
    rw [step_at cfg ⟨hlw, hr⟩, step_at cfg ⟨hls, hrs⟩, heff]
    cases he : w.effect cfg l with
    | overflow => exact .aborted
    | enter a callee =>
      -- the call is on top of the line, which waits
      have hbottom : a.Beside p i l 0 (a.onText #[l] 0) := by
        cases does_of_effect he with
        | call => exact hcur.stay ⟨rfl, rfl, rfl, rfl, rfl, rfl⟩ rfl
      have hw' : a :: w.callers = [] ++ [a] := by simp [hw]
      have hs' : a.onText #[l] 0 :: s.callers = [] ++ [a.onText #[l] 0] := by simp [hs]
      exact .next ⟨hstore, hdel, .inside rfl hw' hs' hbottom⟩ (tells_nothing rfl rfl)
    | signal a s₁ sig =>
      have hd := does_of_effect he
      have hbehind := (hcur.stay hd.continues hd.pc).advance
      have hname : a.name = rootName := hd.continues.name.trans hcur.name
      have hpc : a.pc = i := hd.pc.trans hcur.pc
      rcases Activation.signal_of_not_departs hstay' he with rfl | ⟨v, rfl⟩ | ⟨c, rfl⟩
      · exact .next ⟨rfl, hdel, .behind hw hs hbehind⟩ (tells_nothing rfl rfl)
      · simp only [Effect.onText, Signal.onLine, handle, emit, hsink]
        exact .next ⟨rfl, congrArg (· + 1) hdel, .behind hw hs hbehind⟩
          (tells_top htop rfl rfl hname (by simp [Event.line, hcur.pc]))
      · simp only [Effect.onText, Signal.onLine, handle, raise, hgo]
        exact .next ⟨rfl, hdel, .behind hw hs hbehind⟩
          (tells_top htop rfl rfl hname (by simp [Event.line, hpc]))

/-- Up to the end of the line both take the same steps. -/
theorem Beside.step (hgo : cfg.halt = false) (hsink : ∀ k, cfg.sinkFails k = false)
    (h : Beside p i l w s) : Together p i l w s (w.step cfg) (s.step cfg) := by
  obtain ⟨hstore, hdel, hstack⟩ := h
  cases hstack with
  | before hw hs hcur hstay => exact step_before hgo hsink hstore hdel hw hs hcur hstay
  | inside hcur hw hs hbottom => exact step_inside hgo hsink hstore hdel hcur hw hs hbottom
  | behind hw hs hcur =>
    have hend : s.current.program[s.current.pc]? = none := by
      rw [hcur.same]
      rfl
    simp only [Machine.step, hend, Machine.leave, hs]
    exact .passed hw hs hcur

/-! ## The run of a line -/

/-- What up to `n` steps tell, if `f` says what one of them tells. -/
def collected {α : Type} (f : Machine → Machine → List α) (cfg : Config) : Nat → Machine → List α
  | 0, _ => []
  | n + 1, m =>
    f m (m.step cfg).state ++
      match m.step cfg with
      | .next m' => collected f cfg n m'
      | _ => []

section Collected

variable {α : Type} {f : Machine → Machine → List α}

theorem collected_add {m : Machine} {k : Nat} (h : (m.run cfg k).2 = .running) (n : Nat) :
    m.collected f cfg (k + n) = m.collected f cfg k ++ (m.run cfg k).1.collected f cfg n := by
  induction k generalizing m with
  | zero => simp [collected, run]
  | succ k ih =>
    rw [Nat.succ_add, collected, collected]
    rw [run] at h ⊢
    split at h
    · rename_i m' hs
      simp only [hs]
      rw [ih h, List.append_assoc]
    all_goals simp at h

/-- If the steps tell their events, then a run tells its events. -/
theorem delivers_collected {g : α → Event}
    (hf : ∀ m : Machine, m.Delivers (m.step cfg).state ((f m (m.step cfg).state).map g))
    (n : Nat) (m : Machine) : m.Delivers (m.run cfg n).1 ((m.collected f cfg n).map g) := by
  induction n generalizing m with
  | zero => exact delivers_refl m
  | succ n ih =>
    have hstep := hf m
    simp only [collected, run]
    cases hs : m.step cfg with
    | next m' =>
      rw [hs] at hstep
      rw [List.map_append]
      exact hstep.trans (ih m')
    | done m' r | escaped m' message | aborted m' =>
      rw [hs] at hstep
      rw [List.append_nil]
      exact hstep

end Collected

theorem deliveries_eq_collected (cfg : Config) (n : Nat) (m : Machine) :
    m.deliveries cfg n = m.collected news cfg n := by
  induction n generalizing m with
  | zero => rfl
  | succ n ih =>
    simp only [deliveries, collected, ih]

/-- The events after a step are those before it and the new ones. -/
theorem delivers_step (cfg : Config) (m : Machine) :
    m.Delivers (m.step cfg).state ((m.news (m.step cfg).state).map (·.event)) := by
  obtain ⟨es, hes⟩ := events_step cfg m
  simp [Delivers, news, ← hes, Function.comp_def]

/-- The events of a run are what its steps have delivered. -/
theorem delivers_run (cfg : Config) (n : Nat) (m : Machine) :
    m.Delivers (m.run cfg n).1 ((m.deliveries cfg n).map (·.event)) := by
  rw [deliveries_eq_collected]
  exact delivers_collected (delivers_step cfg) n m

theorem deliveries_add {m : Machine} {k : Nat} (h : (m.run cfg k).2 = .running) (n : Nat) :
    m.deliveries cfg (k + n) = m.deliveries cfg k ++ (m.run cfg k).1.deliveries cfg n := by
  simp only [deliveries_eq_collected]
  exact collected_add h n

theorem deliveries_of_le {m : Machine} {k n : Nat} (hle : k ≤ n)
    (h : (m.run cfg k).2 ≠ .running) : m.deliveries cfg n = m.deliveries cfg k := by
  induction k generalizing m n with
  | zero => exact absurd rfl h
  | succ k ih =>
    obtain ⟨n, rfl⟩ : ∃ n', n = n' + 1 := ⟨n - 1, by omega⟩
    rw [deliveries, deliveries]
    rw [run] at h
    split at h
    · rename_i m' hs
      simp only [hs]
      rw [ih (Nat.le_of_succ_le_succ hle) h]
    all_goals
      rename_i hs
      simp only [hs]

/-- How a program ends that neither returns nor is halted. -/
def throughout : Outcome := .finished ⟨.boolean true, false, none⟩

/-- Where the run of a text is after `k` steps, if that of its line is given `n` of them: they are
together, or the text goes on behind the line, or neither goes on. -/
inductive LineRun (p : Program) (i : Nat) (l : Line) (n : Nat) :
    Nat → Machine × Outcome → Machine × Outcome → Prop where
  | running {w s : Machine} (h : Beside p i l w s) : LineRun p i l n n (w, .running) (s, .running)
  | passed {k : Nat} {w s : Machine} (hk : k < n) (h : Beside p i l w s) (hw : w.callers = [])
      (hs : s.callers = []) (hcur : Activation.Beside p i l 1 w.current s.current) :
      LineRun p i l n k (w, .running) (s, throughout)
  | aborted {k : Nat} {w s : Machine} (hk : k ≤ n) (h : Beside p i l w s) :
      LineRun p i l n k (w, .aborted) (s, .aborted)

/-- The run of a line takes the steps of the run of the text up to the next line, and delivers what
that delivers. -/
theorem Beside.run (hgo : cfg.halt = false) (hsink : ∀ k, cfg.sinkFails k = false)
    (h : Beside p i l w s) (n : Nat) :
    ∃ k, LineRun p i l n k (w.run cfg k) (s.run cfg n) ∧
      s.Delivers (s.run cfg n).1 ((w.deliveries cfg k).map (·.alone)) ∧
      ∀ d ∈ w.deliveries cfg k, d.From i := by
  induction n generalizing w s with
  | zero => exact ⟨0, .running h, delivers_refl s, by simp [deliveries]⟩
  | succ n ih =>
    have htog := h.step hgo hsink
    generalize hw : w.step cfg = ow at htog
    generalize hs : s.step cfg = os at htog
    cases htog with
    | @next w' s' h' htells =>
      obtain ⟨k, hrun, hes, hlines⟩ := ih h'
      have hdel : w.deliveries cfg (k + 1) = w.news w' ++ w'.deliveries cfg k := by
        simp [deliveries, hw, Step.state]
      refine ⟨k + 1, ?_, ?_, ?_⟩
      · simp only [Machine.run, hw, hs]
        generalize w'.run cfg k = rw at hrun
        generalize s'.run cfg n = rs at hrun
        cases hrun with
        | running h => exact .running h
        | passed hk h hw hs hcur => exact .passed (Nat.succ_lt_succ hk) h hw hs hcur
        | aborted hk h => exact .aborted (Nat.succ_le_succ hk) h
      · simp only [Machine.run, hs, hdel, List.map_append]
        exact htells.alone.trans hes
      · rw [hdel]
        intro d hd
        rcases List.mem_append.mp hd with hd | hd
        · exact htells.lines d hd
        · exact hlines d hd
    | aborted =>
      have hdel : w.deliveries cfg 1 = [] := by
        simp [deliveries, hw, Step.state, news_of_silent]
      refine ⟨1, ?_, ?_, ?_⟩
      · simp only [Machine.run, hw, hs]
        exact .aborted (Nat.succ_le_succ (Nat.zero_le n)) h
      · simp only [Machine.run, hs, hdel]
        exact delivers_refl s
      · simp [hdel]
    | passed hcw hcs hcur =>
      refine ⟨0, ?_, ?_, by simp [deliveries]⟩
      · simp only [Machine.run, hs]
        exact .passed (Nat.succ_pos n) h hcw hcs hcur
      · simp only [Machine.run, hs]
        exact delivers_refl s

/-! ## From line to line -/

/-- Procedures are recorded and lines are executed as the text says. -/
structure InOrder (m : Machine) : Prop where
  orderly : m.Orderly
  aligned : m.Aligned

theorem InOrder.steps (h : w.InOrder) (hsteps : Steps cfg w w') : w'.InOrder := by
  refine Steps.invariant ?_ hsteps h
  intro m m' hm hs
  exact ⟨hm.orderly.step hs, hm.aligned.step hm.orderly hs⟩

/-- Two states have the same arrays and the same top level, but for the text that it runs. -/
structure SameTop (w s : Machine) : Prop where
  store : s.store = w.store
  heap : s.bottom.heap = w.bottom.heap
  procedures : s.bottom.scope = w.bottom.scope
  params : s.bottom.params = w.bottom.params
  recording : s.bottom.recording = w.bottom.recording

theorem sameTop_of_onText (hstore : s.store = w.store)
    (hbottom : s.bottom.onText #[] 0 = w.bottom.onText #[] 0) : SameTop w s := by
  constructor
  · exact hstore
  · simpa using congrArg Activation.heap hbottom
  · simpa using congrArg Activation.scope hbottom
  · simpa using congrArg Activation.params hbottom
  · simpa using congrArg Activation.recording hbottom

/-- During a line the top levels are the same. -/
theorem Beside.sameTop (h : Beside p i l w s) : SameTop w s := by
  have hroot : ∀ {m : Machine}, m.callers = [] → m.bottom = m.current := by
    intro m hm
    simp [bottom, hm]
  have hlast : ∀ {m : Machine} {above : List Activation} {a : Activation},
      m.callers = above ++ [a] → m.bottom = a := by
    intro m above a hm
    simp [bottom, hm]
  cases h.stack with
  | before hw hs hcur | behind hw hs hcur =>
    apply sameTop_of_onText h.store
    rw [hroot hs, hroot hw, hcur.same]
    rfl
  | inside _ hw hs hbottom =>
    apply sameTop_of_onText h.store
    rw [hlast hs, hlast hw, hbottom.same]
    rfl

end Machine

namespace Engine

open Machine

/-- The lines that were run so far: the engine they have left, how the last of them ended, and what
all of them have delivered. -/
structure Progress where
  engine : Engine
  outcome : Outcome
  events : List Event

namespace Progress

/-- One more line has been run. -/
def after (seen : List Event) (r : Engine × Outcome) : Progress :=
  ⟨r.1, r.2, seen ++ r.1.machine.events.toList⟩

/-- Run the next line for at most `n` steps, if the one before has ended. -/
def next (n : Nat) (r : Progress) (line : List Text.Piece) : Progress :=
  match r.outcome with
  | .finished _ => .after r.events (r.engine.runLine line [] false n)
  | _ => r

theorem foldl_next {n : Nat} {r : Progress} (h : ∀ r', r.outcome ≠ .finished r')
    (lines : List (List Text.Piece)) : lines.foldl (next n) r = r := by
  induction lines with
  | nil => rfl
  | cons line rest ih =>
    have hstuck : r.next n line = r := by
      unfold next
      split
      · rename_i r' hr'
        exact absurd hr' (h r')
      · rfl
    rw [List.foldl_cons, hstuck, ih]

end Progress

/-- Run a line from a clean state with inputs, and then the others one after the other, each for at
most `n` steps. -/
def runLines (e : Engine) (first : List Text.Piece) (rest : List (List Text.Piece))
    (inputs : List Number) (n : Nat) : Progress :=
  rest.foldl (Progress.next n) (.after [] (e.runLine first inputs true n))

/-- The state `w` of a run of the text `p` is in front of the line at position `i`, and the engine
`e` has the same top level. -/
structure AtLine (p : Program) (i : Nat) (w : Machine) (e : Engine) : Prop where
  store : e.machine.store = w.store
  delivered : e.machine.delivered = w.delivered
  callers : w.callers = []
  idle : e.machine.callers = []
  program : w.current.program = p
  pc : w.current.pc = i
  name : w.current.name = rootName
  same : ∀ q pc, e.machine.current.onText q pc = w.current.onText q pc

variable {p : Program} {i : Nat} {l : Line} {w : Machine} {e : Engine}

/-- The line is run as it is run in the text. -/
theorem AtLine.beside (h : AtLine p i w e) (hl : p[i]? = some l)
    (hstay : w.current.recording = none → l.departs = false) : Beside p i l w (e.start #[l]) :=
  ⟨h.store, h.delivered, .before h.callers h.idle ⟨hl, h.program, h.pc, h.name, h.same _ _⟩ hstay⟩

/-- The next line is in front, once a line is over. -/
theorem AtLine.succ {s : Machine} (h : Beside p i l w s) (hw : w.callers = []) (hs : s.callers = [])
    (hcur : Activation.Beside p i l 1 w.current s.current) :
    AtLine p (i + 1) w { e with machine := s } := by
  refine ⟨h.store, h.delivered, hw, hs, hcur.program, hcur.pc, hcur.name, ?_⟩
  intro q pc
  show s.current.onText q pc = _
  rw [hcur.same]
  rfl

/-- In front of a line the top levels are the same. -/
theorem AtLine.sameTop (h : AtLine p i w e) : SameTop w e.machine := by
  apply sameTop_of_onText h.store
  simpa [bottom, h.callers, h.idle] using h.same #[] 0

/-- No inputs change nothing. -/
theorem AtLine.bind (h : AtLine p i w e) : AtLine p i w (e.bind []) := h

/-- Running lines one by one has come to the same as a run of the whole text: it has ended in the
same way, if it has, and with the same top level. -/
structure Progress.Agrees (r : Progress) (whole : Machine × Outcome) : Prop where
  outcome : r.outcome = whole.2
  top : SameTop whole.1 r.engine.machine
  ended : ∀ r', whole.2 = .finished r' → whole.1.callers = [] ∧ r.engine.machine.callers = []

/-- The text is over behind its last line. -/
theorem AtLine.finish (h : AtLine p i w e) (hend : p[i]? = none) (cfg : Config) (n : Nat) :
    w.run cfg (n + 1) = (w, throughout) ∧ w.deliveries cfg (n + 1) = [] := by
  have hs : w.step cfg = .done w ⟨.boolean true, false, none⟩ := by
    simp [step, h.program, h.pc, hend, leave, h.callers]
  refine ⟨?_, ?_⟩
  · simp [Machine.run, hs, throughout]
  · simp [deliveries, hs, Step.state, news_of_silent]

/-- Running lines one by one has come to where the whole text is `k` steps after `w`, and has
delivered the same since then. -/
structure Progress.Follows (cfg : Config) (size : Nat) (w : Machine) (k : Nat) (seen : List Event)
    (r : Progress) : Prop where
  agrees : r.Agrees (w.run cfg k)
  events : r.events = seen ++ (w.deliveries cfg k).map (·.alone)
  lines : ∀ d ∈ w.deliveries cfg k, ∃ j < size, d.From j

variable {cfg : Config}

/-- Later steps of the text can be put in front. -/
theorem Progress.Follows.prepend {size k₀ k : Nat} {seen : List Event} {r : Progress}
    (hrun : (w.run cfg k₀).2 = .running)
    (hlines : ∀ d ∈ w.deliveries cfg k₀, ∃ j < size, d.From j)
    (h : r.Follows cfg size (w.run cfg k₀).1 k
      (seen ++ (w.deliveries cfg k₀).map (·.alone))) :
    r.Follows cfg size w (k₀ + k) seen := by
  constructor
  · rw [run_add hrun]
    exact h.agrees
  · rw [h.events, deliveries_add hrun, List.map_append, List.append_assoc]
  · rw [deliveries_add hrun]
    intro d hd
    rcases List.mem_append.mp hd with hd | hd
    · exact hlines d hd
    · exact h.lines d hd

/-- A line takes the text to the next one, if it ends; otherwise neither goes on. -/
theorem AtLine.through (hgo : cfg.halt = false) (hsink : ∀ k, cfg.sinkFails k = false)
    (hcfg : e.config = cfg) (h : AtLine p i w e) (hl : p[i]? = some l)
    (hstay : w.current.recording = none → l.departs = false) (rest : List (List Text.Piece))
    (n : Nat) (seen : List Event)
    (hnext : ∀ w' e' seen', Steps cfg w w' → e'.config = cfg → AtLine p (i + 1) w' e' →
      ∃ k, n ≤ k ∧ (rest.foldl (Progress.next n) ⟨e', throughout, seen'⟩).Follows cfg p.size w' k
        seen') :
    ∃ k, n ≤ k ∧ (rest.foldl (Progress.next n) (.after seen (e.execute #[l] n))).Follows cfg p.size
      w k seen := by
  obtain ⟨k, hrun, hes, hlines⟩ := (h.beside hl hstay).run hgo hsink n
  have hsize : i < p.size := (Array.getElem?_eq_some_iff.mp hl).1
  have hfrom : ∀ d ∈ w.deliveries cfg k, ∃ j < p.size, d.From j :=
    fun d hd => ⟨i, hsize, hlines d hd⟩
  have hevents : ((e.start #[l]).run cfg n).1.events.toList =
      (w.deliveries cfg k).map (·.alone) := by
    simpa [Delivers, start] using hes
  have hexec : e.execute #[l] n = ({ e with machine := ((e.start #[l]).run cfg n).1 },
      ((e.start #[l]).run cfg n).2) := by
    simp [execute, hcfg]
  rw [hexec, Progress.after, hevents]
  generalize hs : (e.start #[l]).run cfg n = rs at hrun hevents
  generalize hw : w.run cfg k = rw at hrun
  cases hrun with
  | running hbeside =>
    refine ⟨n, Nat.le_refl n, ?_, ?_, hfrom⟩
    · rw [Progress.foldl_next (by simp), hw]
      exact ⟨rfl, hbeside.sameTop, by simp⟩
    · rw [Progress.foldl_next (by simp)]
  | aborted hk hbeside =>
    have hover : (w.run cfg k).2 ≠ .running := by simp [hw]
    refine ⟨n, Nat.le_refl n, ?_, ?_, ?_⟩
    · rw [Progress.foldl_next (by simp), run_of_le hk hover, hw]
      exact ⟨rfl, hbeside.sameTop, by simp⟩
    · rw [Progress.foldl_next (by simp), deliveries_of_le hk hover]
    · rw [deliveries_of_le hk hover]
      exact hfrom
  | @passed _ w' s' hk hbeside hcw hcs hcur =>
    have hrunning : (w.run cfg k).2 = .running := by rw [hw]
    have hstate : (w.run cfg k).1 = w' := by rw [hw]
    obtain ⟨k', hle, hfollows⟩ := hnext w' { e with machine := s' }
      (seen ++ (w.deliveries cfg k).map (·.alone)) (steps_of_run hw) hcfg
      (.succ hbeside hcw hcs hcur)
    refine ⟨k + k', Nat.le_trans hle (Nat.le_add_left k' k), ?_⟩
    rw [← hstate] at hfollows
    exact hfollows.prepend hrunning hfrom

/-- The lines from some position on, run one by one, agree with the text from there on. -/
theorem AtLine.passes_on (hgo : cfg.halt = false) (hsink : ∀ k, cfg.sinkFails k = false)
    (hstay : ∀ i l, p[i]? = some l → p.staticDepth i = 0 → l.departs = false)
    (rest : List (List Text.Piece)) (hrest : p.toList.drop i = rest.map Line.ofPieces)
    (hcfg : e.config = cfg) (h : AtLine p i w e) (horder : w.InOrder) (n : Nat)
    (seen : List Event) :
    ∃ k, n ≤ k ∧ (rest.foldl (Progress.next n) ⟨e, throughout, seen⟩).Follows cfg p.size w k
      seen := by
  induction rest generalizing i w e seen with
  | nil =>
    have hend : p[i]? = none := by
      rw [← Array.getElem?_toList]
      exact List.getElem?_eq_none (List.drop_eq_nil_iff.mp hrest)
    obtain ⟨hrun, hdel⟩ := h.finish hend cfg n
    refine ⟨n + 1, Nat.le_succ n, ?_, ?_, ?_⟩
    · rw [hrun]
      exact ⟨rfl, h.sameTop, fun _ _ => ⟨h.callers, h.idle⟩⟩
    · simp [hdel]
    · simp [hdel]
  | cons line rest ih =>
    have hl : p[i]? = some (.ofPieces line) := by
      rw [← Array.getElem?_toList, ← List.head?_drop, hrest]
      rfl
    have hrest' : p.toList.drop (i + 1) = rest.map Line.ofPieces := by
      rw [← List.tail_drop, hrest]
      rfl
    -- what the line does while nothing is recorded stands outside of all procedures
    have hplain : w.current.recording = none → (Line.ofPieces line).departs = false := by
      intro hquiet
      have hzero := horder.aligned.current.quiet hquiet
      rw [h.program, h.pc] at hzero
      exact hstay i _ hl hzero
    refine h.bind.through hgo hsink hcfg hl hplain rest n seen ?_
    intro w' e' seen' hsteps hcfg' h'
    exact ih hrest' hcfg' h' (horder.steps hsteps) seen'

/-- The state in which a text is run with inputs, and the engine that runs its first line. -/
theorem atLine_start (e : Engine) (p : Program) (inputs : List Number) :
    AtLine p 0 ((e.reset.bind inputs).start p) (e.reset.bind inputs) :=
  ⟨rfl, rfl, rfl, rfl, rfl, rfl, rfl, fun _ _ => rfl⟩

/-- A text that is run with inputs starts in order. -/
theorem inOrder_start (e : Engine) (p : Program) (inputs : List Number) :
    ((e.reset.bind inputs).start p).InOrder := by
  refine ⟨?_, Activation.aligned_start rfl rfl rfl, ?_, List.isChain_singleton _⟩
  · exact orderly_kept.launch inputs p (orderly_kept.initial e.machine.delivered)
  · intro c hc
    cases hc

/-- Running a program one line at a time agrees with running it as a whole, if no line of the top
level jumps or returns.  Whatever number of steps each line is given, there is a moment of the whole
run, not before that number of steps, at which it has come to the same: it has ended or it has not,
its top level is the same, and it has delivered the same, except that what the top level delivers
has the number of its line there and the number one here.  So if one of them ends, both do, and in
the same way. -/
theorem runLines_agrees (e : Engine) (first : List Text.Piece) (rest : List (List Text.Piece))
    (inputs : List Number) (hgo : e.config.halt = false)
    (hsink : ∀ k, e.config.sinkFails k = false)
    (hstay : ∀ i l, (Program.ofTexts (first :: rest))[i]? = some l →
      (Program.ofTexts (first :: rest)).staticDepth i = 0 → l.departs = false) :
    (∀ n, ∃ k, n ≤ k ∧
      let alone := e.runLines first rest inputs n
      let whole := e.run (.ofTexts (first :: rest)) inputs k
      let ds := ((e.reset.bind inputs).start (.ofTexts (first :: rest))).deliveries e.config k
      alone.Agrees (whole.1.machine, whole.2) ∧
        whole.1.machine.events.toList = ds.map (·.event) ∧
        alone.events = ds.map (·.alone) ∧
        ∀ d ∈ ds, ∃ i < (first :: rest).length, d.From i) ∧
      ∀ o, o ≠ .running →
        ((∃ n, (e.run (.ofTexts (first :: rest)) inputs n).2 = o) ↔
          ∃ n, (e.runLines first rest inputs n).outcome = o) := by
  have hfollows : ∀ n, ∃ k, n ≤ k ∧ (e.runLines first rest inputs n).Follows e.config
      (first :: rest).length ((e.reset.bind inputs).start (.ofTexts (first :: rest))) k [] := by
    intro n
    have horder := inOrder_start e (.ofTexts (first :: rest)) inputs
    have hzero := Program.staticDepth_zero (.ofTexts (first :: rest))
    have hsize : (Program.ofTexts (first :: rest)).size = (first :: rest).length := by
      simp [Program.ofTexts]
    have hfirst : (Program.ofTexts (first :: rest))[0]? = some (.ofPieces first) := rfl
    rw [← hsize]
    have hcfg : (e.reset.bind inputs).config = e.config := rfl
    refine (atLine_start e _ inputs).through hgo hsink hcfg hfirst
      (fun _ => hstay 0 _ hfirst hzero) rest n [] ?_
    intro w e' seen hsteps hcfg h
    exact h.passes_on hgo hsink hstay rest rfl hcfg (horder.steps hsteps) n seen
  refine ⟨?_, ?_⟩
  · intro n
    obtain ⟨k, hle, hk⟩ := hfollows n
    refine ⟨k, hle, hk.agrees, ?_, hk.events, hk.lines⟩
    have hes := delivers_run e.config k
      ((e.reset.bind inputs).start (.ofTexts (first :: rest)))
    exact Eq.trans hes (List.nil_append _)
  · intro o ho
    constructor
    · rintro ⟨n, hn⟩
      obtain ⟨k, hle, hk⟩ := hfollows n
      -- the moment that the lines have come to is not before the end
      have hend : (((e.reset.bind inputs).start (.ofTexts (first :: rest))).run
          e.config n).2 = o := hn
      refine ⟨n, hk.agrees.outcome.trans ?_⟩
      rw [run_of_le hle (hend ▸ ho), hend]
    · rintro ⟨n, hn⟩
      obtain ⟨k, -, hk⟩ := hfollows n
      exact ⟨k, hk.agrees.outcome.symm.trans hn⟩

/-- The lines after `BeginFunc root, 0`: the procedure has the name of the top level, jumps and
returns. -/
def afterBeginFunc : List (List Text.Piece) :=
  ["goto last", "print 1", "last: print 2", "return 3", "EndFunc", "x = call root, 0", "print x"]

/-- The record of the procedure keeps its line, and that of the top level does not. -/
theorem runLines_agrees_afterBeginFunc :
    ((Engine.new {}).runLines "BeginFunc root, 0" afterBeginFunc [] 6).events.map
        (fun ev => (ev.proc, ev.line)) = [("root", 3), ("root", 1)] ∧
      ∃ k, ((Engine.new {}).run (.ofTexts ("BeginFunc root, 0" :: afterBeginFunc)) [] k).2 =
        throughout := by
  have hfacts : ((Engine.new {}).runLines "BeginFunc root, 0" afterBeginFunc [] 6).events.map
        (fun ev => (ev.proc, ev.line)) = [("root", 3), ("root", 1)] ∧
      ((Engine.new {}).runLines "BeginFunc root, 0" afterBeginFunc [] 6).outcome = throughout := by
    decide +kernel
  obtain ⟨hevents, hout⟩ := hfacts
  refine ⟨hevents, ?_⟩
  have hstay : ∀ i : Fin 8, (Program.ofTexts ("BeginFunc root, 0" :: afterBeginFunc)).staticDepth
      i = 0 → ∀ l ∈ (Program.ofTexts ("BeginFunc root, 0" :: afterBeginFunc))[i.val]?,
        l.departs = false := by
    decide +kernel
  have hagrees := runLines_agrees (.new {}) "BeginFunc root, 0" afterBeginFunc [] rfl
    (fun _ => rfl) fun i l hl hi =>
      hstay ⟨i, (Array.getElem?_eq_some_iff.mp hl).1⟩ hi l hl
  exact (hagrees.2 throughout (by simp [throughout])).mpr ⟨6, hout⟩

end Engine

end AddressCode
