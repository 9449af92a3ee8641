import AddressCode.Proofs.Frames

/-!
# AddressCode.Proofs.History — runs do not leak into later runs

An engine keeps its program and the state of the top level from one operation to the next, and its
receiver of output counts the records it gets.  `History` are the operations that have led to an
engine; a run among them may have been halted, may have left a procedure unfinished or parameters
pending, and may have been broken off by a receiver, in however many calls.

Whatever the history, the engine has the program that was loaded last, with the lines added since,
and runs it as a new engine does whose receiver of output has got as many records
(`exec_forgets_history`).  The two runs differ in the number of records that were delivered before,
and in nothing else: `step_counting` says so for a step, and `run_counting` for a run.
-/

namespace AddressCode

/-! ## Records that were delivered before -/

/-- The receiver of output as it is once it has got `k` records. -/
def Config.afterRecords (c : Config) (k : Nat) : Config :=
  { c with
    sinkFails := fun n => c.sinkFails (n + k)
    sinkMessage := fun n => c.sinkMessage (n + k) }

/-- A receiver that does not count is the same after any records. -/
theorem Config.afterRecords_of_eq {c : Config} {k : Nat}
    (hfails : ∀ n, c.sinkFails (n + k) = c.sinkFails n)
    (hmessage : ∀ n, c.sinkMessage (n + k) = c.sinkMessage n) : c.afterRecords k = c := by
  have hsame : (fun n => c.sinkFails (n + k)) = c.sinkFails := funext hfails
  have hsame' : (fun n => c.sinkMessage (n + k)) = c.sinkMessage := funext hmessage
  simp [Config.afterRecords, hsame, hsame']

/-- A state in which `k` more records were delivered in earlier runs. -/
def Machine.counting (m : Machine) (k : Nat) : Machine := { m with delivered := m.delivered + k }

/-- A step in which `k` more records were delivered in earlier runs. -/
def Step.counting (o : Step) (k : Nat) : Step :=
  match o with
  | .next m => .next (m.counting k)
  | .done m r => .done (m.counting k) r
  | .escaped m message => .escaped (m.counting k) message
  | .aborted m => .aborted (m.counting k)

namespace Machine

variable {cfg : Config} {m m' : Machine} {k : Nat}

theorem raise_counting (cfg : Config) (m : Machine) (k : Nat) (c : Cause) :
    raise cfg (m.counting k) c = (raise (cfg.afterRecords k) m c).counting k := by
  unfold raise
  by_cases hh : cfg.halt
  · simp only [Config.afterRecords, hh, if_true]
    rfl
  · simp only [Config.afterRecords, hh]
    rfl

theorem leave_counting (m : Machine) (k : Nat) (v : Option Value) :
    (m.counting k).leave v = (m.leave v).counting k := by
  cases hc : m.callers with
  | nil => simp [leave, counting, hc, Step.counting]
  | cons c rest => simp [leave, counting, hc, Step.counting]

/-- A record is taken by a receiver that counts on. -/
theorem emit_counting (cfg : Config) (m : Machine) (k : Nat) (v : Value) (line : Int) :
    (m.counting k).emit cfg v line = (m.emit (cfg.afterRecords k) v line).counting k := by
  have hprinted : (m.counting k).printed v line = (m.printed v line).counting k := by
    simp [printed, counting, Nat.add_right_comm]
  have hsink : cfg.sinkFails ((m.counting k).delivered + 1) =
      (cfg.afterRecords k).sinkFails (m.delivered + 1) := by
    simp [counting, Config.afterRecords, Nat.add_right_comm]
  have hmessage : cfg.sinkMessage ((m.counting k).delivered + 1) =
      (cfg.afterRecords k).sinkMessage (m.delivered + 1) := by
    simp [counting, Config.afterRecords, Nat.add_right_comm]
  rw [emit_eq, emit_eq, hprinted, hsink, hmessage]
  cases hs : (cfg.afterRecords k).sinkFails (m.delivered + 1) with
  | false => rfl
  | true =>
    cases hc : m.callers with
    | nil => simp [counting, hc, Step.counting]
    | cons c rest =>
      have hc' : (m.counting k).callers = c :: rest := hc
      have hstrict : (cfg.afterRecords k).strict = cfg.strict := rfl
      simp only [hc', hstrict]
      by_cases hst : cfg.strict
      · simp only [hst, if_true]
        rfl
      · simp only [hst]
        exact raise_counting cfg ((m.printed v line).backTo c rest) k _

/-- A step depends on the records that were delivered before in nothing but the receiver of
output. -/
theorem step_counting (cfg : Config) (m : Machine) (k : Nat) :
    (m.counting k).step cfg = (m.step (cfg.afterRecords k)).counting k := by
  cases hp : m.current.program[m.current.pc]? with
  | none =>
    have hend : (m.counting k).current.program[(m.counting k).current.pc]? = none := hp
    simp only [step, hp, hend]
    exact leave_counting m k none
  | some l =>
    cases hr : m.current.recording with
    | some r =>
      have hline : (m.counting k).current.program[(m.counting k).current.pc]? = some l := hp
      have hrec : (m.counting k).current.recording = some r := hr
      simp only [step, hp, hline, stepLine, hr, hrec]
      rfl
    | none =>
      have hl : m.At l := ⟨hp, hr⟩
      have hl' : (m.counting k).At l := ⟨hp, hr⟩
      have heff : (m.counting k).effect cfg l = m.effect (cfg.afterRecords k) l := rfl
      rw [step_at _ hl, step_at _ hl', heff]
      cases m.effect (cfg.afterRecords k) l with
      | overflow => rfl
      | enter a callee => rfl
      | signal a s sig =>
        -- only a print asks how many records there were
        cases sig with
        | next => rfl
        | jump position => rfl
        | ret v => exact leave_counting { m with current := a, store := s } k (some v)
        | print v line => exact emit_counting cfg { m with current := a, store := s } k v line
        | fault c => exact raise_counting cfg { m with current := a, store := s } k c

/-- So does a run. -/
theorem run_counting (cfg : Config) (m : Machine) (k n : Nat) :
    (m.counting k).run cfg n =
      ((m.run (cfg.afterRecords k) n).1.counting k, (m.run (cfg.afterRecords k) n).2) := by
  induction n generalizing m with
  | zero => rfl
  | succ n ih =>
    rw [run, run, step_counting]
    cases m.step (cfg.afterRecords k) with
    | next m' => exact ih m'
    | done m' r => rfl
    | escaped m' message => rfl
    | aborted m' => rfl

/-- And so does a run in which receivers may fail at any moment. -/
theorem happens_counting {o : Step} :
    Happens cfg (m.counting k) o ↔
      ∃ o', o = Step.counting o' k ∧ Happens (cfg.afterRecords k) m o' := by
  constructor
  · intro h
    cases h with
    | step => exact ⟨_, step_counting cfg m k, .step⟩
    | @caught ended c rest message hc =>
      exact ⟨_, raise_counting cfg (m.backTo c rest) k (.internal message), .caught message hc⟩
    | escaped message => exact ⟨_, rfl, .escaped message⟩
  · rintro ⟨o', rfl, h⟩
    cases h with
    | step =>
      rw [← step_counting]
      exact .step
    | @caught ended c rest message hc =>
      rw [← raise_counting]
      exact .caught message hc
    | escaped message => exact .escaped message

theorem moments_counting :
    Moments cfg (m.counting k) m' ↔
      ∃ m₁, m' = counting m₁ k ∧ Moments (cfg.afterRecords k) m m₁ := by
  constructor
  · intro h
    induction h with
    | refl => exact ⟨m, rfl, .refl⟩
    | tail _ hn ih =>
      obtain ⟨m₁, rfl, hm₁⟩ := ih
      obtain ⟨o, ho, hnext⟩ := happens_counting.mp hn
      cases o with
      | next m₂ =>
        cases ho
        exact ⟨m₂, rfl, hm₁.tail hnext⟩
      | done => cases ho
      | escaped => cases ho
      | aborted => cases ho
  · rintro ⟨m₁, rfl, h⟩
    induction h with
    | refl => exact .refl
    | tail _ hn ih => exact ih.tail (happens_counting.mpr ⟨_, rfl, hn⟩)

end Machine

namespace Engine

open Machine

/-! ## Operations -/

/-- What an engine can be asked to do. -/
inductive Op where
  | load (p : Program)
  | add (line : List Text.Piece)
  | exec (inputs : List Number)
  | run (p : Program) (inputs : List Number)
  | runSource (source : List Text.Piece) (inputs : List Number)
  | runLine (line : List Text.Piece) (inputs : List Number) (clear : Bool)
  | get (text : List Text.Piece)

/-- The state in which an engine starts its program with inputs. -/
def execStart (e : Engine) (inputs : List Number) : Machine :=
  (e.reset.bind inputs).start e.program

/-- The run that `e` has started in `m₀` has ended, with a result or by the failure of a receiver,
and has left the engine `e'`. -/
inductive Ran (e : Engine) (m₀ : Machine) : Engine → Prop where
  | intro {m m' : Machine} (hm : Moments e.config m₀ m) (hend : Ends e.config m m') :
      Ran e m₀ { e with machine := m' }

namespace Op

/-- An operation leads from one engine to another. -/
inductive Leads : Op → Engine → Engine → Prop where
  | load (e : Engine) (p : Program) : Leads (.load p) e (e.load p)
  | add (e : Engine) (line : List Text.Piece) : Leads (.add line) e (e.add line)
  | exec {e e' : Engine} {inputs : List Number}
      (h : e.Ran (e.execStart inputs) e') : Leads (.exec inputs) e e'
  | run {e e' : Engine} {p : Program} {inputs : List Number}
      (h : Leads (.exec inputs) (e.load p) e') : Leads (.run p inputs) e e'
  | runSource {e e' : Engine} {source : List Text.Piece} {inputs : List Number}
      (h : Leads (.run (e.programOf source) inputs) e e') : Leads (.runSource source inputs) e e'
  | runLine {e e' : Engine} {line : List Text.Piece} {inputs : List Number} {clear : Bool}
      (h : e.Ran (((if clear then e.reset else e).bind inputs).start #[.ofPieces line]) e') :
      Leads (.runLine line inputs clear) e e'
  | get (e : Engine) (text : List Text.Piece) : Leads (.get text) e e

/-- The program that an operation loads. -/
def loads? (config : Config) : Op → Option Program
  | .load p | .run p _ => some p
  | .runSource source _ => some (.ofSource config.separator source)
  | .add _ | .exec _ | .runLine _ _ _ | .get _ => none

/-- The line that an operation adds to the program. -/
def adds? : Op → Option Line
  | .add line => some (.ofPieces line)
  | .load _ | .exec _ | .run _ _ | .runSource _ _ | .runLine _ _ _ | .get _ => none

end Op

/-- The operations that have led from a new engine to `e`, in their order. -/
inductive History (config : Config) : List Op → Engine → Prop where
  | new : History config [] (.new config)
  | snoc {ops : List Op} {op : Op} {e e' : Engine} (h : History config ops e)
      (hop : op.Leads e e') : History config (ops ++ [op]) e'

/-- The program that was loaded last, and the lines that were added since. -/
def programAfter (config : Config) (ops : List Op) : Program :=
  let since := (ops.reverse.takeWhile fun op => (op.loads? config).isNone).reverse
  (ops.reverse.findSome? (Op.loads? config)).getD #[] ++ (since.filterMap Op.adds?).toArray

variable {config : Config} {ops : List Op} {op : Op} {e e' : Engine}

/-- What an operation does to a program. -/
def Op.onProgram (config : Config) (op : Op) (p : Program) : Program :=
  match op.loads? config, op.adds? with
  | some q, _ => q
  | none, some l => p.push l
  | none, none => p

theorem programAfter_snoc (config : Config) (ops : List Op) (op : Op) :
    programAfter config (ops ++ [op]) = op.onProgram config (programAfter config ops) := by
  unfold programAfter Op.onProgram
  cases hload : op.loads? config with
  | some q => simp [hload]
  | none =>
    cases hadd : op.adds? with
    | some l => simp [hload, hadd]
    | none => simp [hload, hadd]

/-- A run leaves the options and the program of an engine. -/
theorem Ran.keeps {m₀ : Machine} (h : e.Ran m₀ e') :
    e'.config = e.config ∧ e'.program = e.program := by
  obtain ⟨-, -⟩ := h
  exact ⟨rfl, rfl⟩

/-- Operations never change the options, and change the program by loading and adding only. -/
theorem Op.Leads.program (h : op.Leads e e') :
    e'.config = e.config ∧ e'.program = op.onProgram e.config e.program := by
  induction h with
  | load e p => exact ⟨rfl, rfl⟩
  | add e line => exact ⟨rfl, rfl⟩
  | exec h => exact h.keeps
  | run _ ih => exact ih
  | runSource _ ih => exact ih
  | runLine h => exact h.keeps
  | get e text => exact ⟨rfl, rfl⟩

theorem History.program (h : History config ops e) :
    e.config = config ∧ e.program = programAfter config ops := by
  induction h with
  | new => exact ⟨rfl, rfl⟩
  | snoc _ hop ih =>
    obtain ⟨hconfig, hprogram⟩ := ih
    obtain ⟨hconfig', hprogram'⟩ := hop.program
    rw [hconfig, hprogram] at hprogram'
    exact ⟨hconfig'.trans hconfig, hprogram'.trans (programAfter_snoc config _ _).symm⟩

/-! ## Forgetting the history -/

/-- An engine starts its program in the state in which a new one starts it, but for the records
that were delivered before. -/
theorem execStart_counting (config : Config) {p : Program} (hprogram : e.program = p)
    (inputs : List Number) :
    e.execStart inputs =
      (((Engine.new config).load p).execStart inputs).counting e.machine.delivered := by
  simp [execStart, start, Engine.bind, reset, load, new, counting, Machine.initial, hprogram]

/-- After any history of operations an engine has the options it was made with and the program that
was loaded last, with the lines added since; neither running a line nor asking for a value changes
the program.  It executes this program with the outcome, the events, the log and the top level (its
variables with their arrays, procedures, parameters and recording) with which a new engine runs it,
if the receiver of output is as it is now, which is as it was unless it counts its records.  If
receivers fail at some moments of the two runs, they still have the same moments. -/
theorem exec_forgets_history (h : History config ops e) :
    let k := e.machine.delivered
    let fresh := Engine.new (config.afterRecords k)
    let p := programAfter config ops
    e.config = config ∧ e.program = p ∧
      ((∀ n, config.sinkFails (n + k) = config.sinkFails n ∧
        config.sinkMessage (n + k) = config.sinkMessage n) → fresh = Engine.new config) ∧
      (∀ line inputs clear e', (Op.runLine line inputs clear).Leads e e' → e'.program = p) ∧
      (∀ text e', (Op.get text).Leads e e' → e'.program = p) ∧
      (∀ inputs n, (e.exec inputs n).2 = (fresh.run p inputs n).2 ∧
        (e.exec inputs n).1.machine = (fresh.run p inputs n).1.machine.counting k) ∧
      ∀ inputs m o, (Moments e.config (e.execStart inputs) m ∧ Happens e.config m o) ↔
        ∃ m' o', m = counting m' k ∧ o = Step.counting o' k ∧
          Moments fresh.config ((fresh.load p).execStart inputs) m' ∧
          Happens fresh.config m' o' := by
  intro k fresh p
  obtain ⟨hconfig, hprogram⟩ := h.program
  have hstart : ∀ inputs, e.execStart inputs = ((fresh.load p).execStart inputs).counting k :=
    execStart_counting _ hprogram
  refine ⟨hconfig, hprogram, ?_, ?_, ?_, ?_, ?_⟩
  · intro hsame
    exact congrArg Engine.new
      (Config.afterRecords_of_eq (fun n => (hsame n).1) (fun n => (hsame n).2))
  · intro line inputs clear e' hop
    exact hop.program.2.trans hprogram
  · intro text e' hop
    exact hop.program.2.trans hprogram
  · intro inputs n
    -- both are runs from the starting states, under the two receivers
    have hrun : (e.execStart inputs).run e.config n =
        ((((fresh.load p).execStart inputs).run fresh.config n).1.counting k,
          (((fresh.load p).execStart inputs).run fresh.config n).2) := by
      rw [hstart, hconfig]
      exact run_counting config _ k n
    have hmachine := congrArg Prod.fst hrun
    have houtcome := congrArg Prod.snd hrun
    exact ⟨houtcome, hmachine⟩
  · intro inputs m o
    rw [hstart, hconfig]
    constructor
    · rintro ⟨hm, ho⟩
      obtain ⟨m', rfl, hm'⟩ := moments_counting.mp hm
      obtain ⟨o', rfl, ho'⟩ := happens_counting.mp ho
      exact ⟨m', o', rfl, rfl, hm', ho'⟩
    · rintro ⟨m', o', rfl, rfl, hm', ho'⟩
      exact ⟨moments_counting.mpr ⟨m', rfl, hm'⟩, happens_counting.mpr ⟨o', rfl, ho'⟩⟩

/-! ## Histories of actual runs -/

/-- An operation that has run a program to an end leaves what its run has left. -/
theorem ran_of_execute {e₁ : Engine} {p : Program} {n : Nat} {o : Outcome}
    (hconfig : e₁.config = e.config) (hprogram : e₁.program = e.program)
    (hexec : e₁.execute p n = (e', o)) (ho : o.ended = true) : e.Ran (e₁.start p) e' := by
  obtain ⟨m, hsteps, hstop⟩ := stops_of_execute hexec ho
  rw [hconfig] at hsteps hstop
  rw [eq_of_execute hconfig hprogram hexec]
  exact .intro hsteps.moments hstop.ends

theorem leads_run {p : Program} {inputs : List Number} {n : Nat}
    (ho : (e.run p inputs n).2.ended = true) :
    (Op.run p inputs).Leads e (e.run p inputs n).1 :=
  .run (.exec (ran_of_execute rfl rfl (Prod.ext rfl rfl) ho))

theorem leads_runLine {line : List Text.Piece} {inputs : List Number} {clear : Bool} {n : Nat}
    (ho : (e.runLine line inputs clear n).2.ended = true) :
    (Op.runLine line inputs clear).Leads e (e.runLine line inputs clear n).1 := by
  refine .runLine (ran_of_execute ?_ ?_ (Prod.ext rfl rfl) ho)
  · cases clear <;> rfl
  · cases clear <;> rfl

/-- The options of an engine whose receiver of output fails at the first record it gets. -/
def failingFirst : Config := { sinkFails := fun n => n == 1 }

/-- An engine whose first run is broken off at the top level. -/
def brokenOff : Engine := ((Engine.new failingFirst).run (.ofStrings ["x = 5", "print x"]) [] 5).1

/-- It is given another program, and one line more. -/
def reloaded : Engine := (brokenOff.load (.ofStrings ["x = p0 + 1", "print x"])).add "y = x"

/-- Then a line leaves a parameter pending. -/
def pending : Engine := (reloaded.runLine "param 3" [] false 5).1

/-- And another line leaves a procedure unfinished. -/
def unfinished : Engine := (pending.runLine "BeginFunc f, 1" [] false 5).1

/-- What has led there. -/
def unfinishedOps : List Op :=
  [.run (.ofStrings ["x = 5", "print x"]) [], .load (.ofStrings ["x = p0 + 1", "print x"]),
    .add "y = x", .runLine "param 3" [] false, .runLine "BeginFunc f, 1" [] false, .get "x"]

theorem history_unfinished
    (hrun : ((Engine.new failingFirst).run (.ofStrings ["x = 5", "print x"]) [] 5).2.ended = true)
    (hparam : (reloaded.runLine "param 3" [] false 5).2.ended = true)
    (hbegin : (pending.runLine "BeginFunc f, 1" [] false 5).2.ended = true) :
    History failingFirst unfinishedOps unfinished := by
  have hfirst : History failingFirst _ brokenOff := .snoc .new (leads_run hrun)
  have hsecond : History failingFirst _ reloaded :=
    .snoc (.snoc hfirst (.load _ _)) (.add _ _)
  have hthird : History failingFirst _ pending := .snoc hsecond (leads_runLine hparam)
  have hfourth : History failingFirst _ unfinished := .snoc hthird (leads_runLine hbegin)
  exact .snoc hfourth (.get _ _)

/-- The engine has a parameter pending and a procedure unfinished, and has seen its receiver of
output fail.  It runs the program it was given as a new engine does. -/
theorem exec_forgets_history_unfinished :
    unfinished.machine.current.params.size = 1 ∧
      unfinished.machine.current.recording.isSome = true ∧
      unfinished.program = .ofStrings ["x = p0 + 1", "print x", "y = x"] ∧
      (unfinished.exec [.one] 5).2 =
        ((Engine.new (failingFirst.afterRecords 1)).run
          (.ofStrings ["x = p0 + 1", "print x", "y = x"]) [.one] 5).2 ∧
      (unfinished.exec [.one] 5).1.machine =
        ((Engine.new (failingFirst.afterRecords 1)).run
          (.ofStrings ["x = p0 + 1", "print x", "y = x"]) [.one] 5).1.machine.counting 1 := by
  have hfacts :
      ((Engine.new failingFirst).run (.ofStrings ["x = 5", "print x"]) [] 5).2.ended = true ∧
      (reloaded.runLine "param 3" [] false 5).2.ended = true ∧
      (pending.runLine "BeginFunc f, 1" [] false 5).2.ended = true ∧
      unfinished.machine.current.params.size = 1 ∧
      unfinished.machine.current.recording.isSome = true ∧ unfinished.machine.delivered = 1 := by
    decide +kernel
  obtain ⟨hrun, hparam, hbegin, hparams, hrecording, hdelivered⟩ := hfacts
  have hprogram : programAfter failingFirst unfinishedOps =
      .ofStrings ["x = p0 + 1", "print x", "y = x"] := by
    simp [programAfter, unfinishedOps, Op.loads?, Op.adds?, Program.ofStrings, Line.ofString,
      List.findSome?, List.filterMap]
  obtain ⟨-, hp, -, -, -, hsame, -⟩ := exec_forgets_history (history_unfinished hrun hparam hbegin)
  obtain ⟨houtcome, hmachine⟩ := hsame [.one] 5
  rw [hprogram, hdelivered] at houtcome hmachine
  exact ⟨hparams, hrecording, hp.trans hprogram, houtcome, hmachine⟩

end Engine

end AddressCode
