import AddressCode.Interpreter
import AddressCode.Proofs.Calls
import AddressCode.Proofs.Nesting

/-!
# AddressCode.Proofs.NestedRuns — the machine and the interpreter agree

The functions of `AddressCode.Interpreter` push and pop frames on a stack of their own, hand a
halting fault on from caller to caller, and take a failure of the receiver of output in the
instruction that made the call.  The machine does the last two in a single step, and its call stack
is read off its activations.  `loop_agrees` says that both run the same programs in the same way:
whatever the running activation of a machine is in the middle of, the machine comes to where the
interpreter comes to.  It is proved by induction on the steps that the interpreter is given, for
the activation and for all calls inside of it at once.

For the top level this gives `interpret_agrees`: one of them ends if and only if the other one does,
with the same outcome in the same state.  How the interpreter ends does not depend on how many steps
it is given, if they are enough (`interpret_of_le`).
-/

namespace AddressCode

/-! ## More steps -/

namespace Context

/-- Either the steps were used up, or it makes no difference to have more of them. -/
def Extends {α : Type} (r r' : Returns α) : Prop := r.2.2 = .error .outOfSteps ∨ r' = r

theorem Extends.refl {α : Type} (r : Returns α) : Extends r r := Or.inr rfl

variable {cfg : Config} {runBody runBody' : Context → World → Returns Ending}
  {again again' : Context → World → Nat → Returns Ending}

/-- A call that has come back comes back in the same way if its body may take more steps. -/
theorem call_extends (h : ∀ c w, Extends (runBody c w) (runBody' c w)) (limit : Nat) (c : Context)
    (w : World) (proc : String) (count : Option Nat) (result : Option String) :
    Extends (c.call limit runBody w proc count result)
      (c.call limit runBody' w proc count result) := by
  unfold call
  cases Scope.resolve? proc c.scopes with
  | none => exact .refl _
  | some found =>
    obtain ⟨p, home⟩ := found
    dsimp only
    cases count.filter fun n => (n : Int) ≠ p.arity with
    | some n => exact .refl _
    | none =>
      dsimp only
      split
      · exact .refl _
      · cases (c.params.take p.arity).1 with
        | none => exact .refl _
        | some args =>
          -- if the steps are used up in the body, they are in the call
          dsimp only
          rcases h (new p.name p.body home w.places) _ with hout | hsame
          · left
            rw [hout]
            rfl
          · rw [hsame]
            exact .refl _

theorem execute_extends (h : ∀ c w, Extends (runBody c w) (runBody' c w)) (limit : Nat)
    (c : Context) (w : World) (pc : Nat) (ins : Instr) :
    Extends (c.execute limit runBody w pc ins) (c.execute limit runBody' w pc ins) := by
  induction ins with
  | ifThen cond action ih =>
    simp only [execute]
    split
    · exact .refl _
    · split
      · exact ih
      · exact .refl _
  | call proc count result => exact call_extends h limit c w proc count result
  | ret x => cases x <;> exact .refl _
  | noop | print | goto | param | beginFunc | endFunc | assign | expression => exact .refl _

theorem step_extends (h : ∀ c w, Extends (runBody c w) (runBody' c w)) (c : Context) (w : World)
    (pc : Nat) (l : Line) :
    Extends (c.step cfg runBody w pc l) (c.step cfg runBody' w pc l) := by
  unfold step
  cases l.instr with
  | error e => exact .refl _
  | ok ins =>
    dsimp only
    rcases execute_extends h cfg.maxDepth c w pc ins with hout | hsame
    · left
      generalize c.execute cfg.maxDepth runBody w pc ins = r at hout
      obtain ⟨c, w, a⟩ := r
      cases hout
      rfl
    · rw [hsame]
      exact .refl _

theorem obey_extends (h : ∀ c w pc, Extends (again c w pc) (again' c w pc)) (pc : Nat)
    {r r' : Returns Answer} (hr : Extends r r') :
    Extends (obey cfg again pc r) (obey cfg again' pc r') := by
  rcases hr with hout | hsame
  · left
    obtain ⟨c, w, a⟩ := r
    cases hout
    rfl
  · rw [hsame]
    obtain ⟨c, w, b | a⟩ := r
    · exact .refl _
    · cases a with
      | next => exact h c w (pc + 1)
      | jump position => exact h c w position
      | ret v => exact .refl _
      | print v line =>
        simp only [obey]
        split
        · exact .refl _
        · exact h _ _ _
      | fault r =>
        simp only [obey]
        split
        · exact .refl _
        · exact h _ _ _

/-- A run that has come to an end with some steps comes to the same end with more of them. -/
theorem loop_extends (cfg : Config) {n k : Nat} (hle : n ≤ k) (c : Context) (w : World) (pc : Nat) :
    Extends (loop cfg n c w pc) (loop cfg k c w pc) := by
  induction n generalizing k c w pc with
  | zero => exact Or.inl rfl
  | succ n ih =>
    obtain ⟨k, rfl⟩ : ∃ k', k = k' + 1 := ⟨k - 1, by omega⟩
    have hrest := ih (Nat.le_of_succ_le_succ hle)
    simp only [loop]
    split
    · exact .refl _
    · split
      · exact hrest _ _ _
      · exact obey_extends hrest pc (step_extends (fun _ _ => hrest _ _ _) c w pc _)

end Context

/-! ## Frames and their places -/

namespace CallStack

@[simp]
theorem heapIn_cons_self (f : Frame) (older : List Frame) :
    heapIn older.length (f :: older) = f.heap := by
  simp [heapIn]

@[simp]
theorem setHeapIn_cons_self (f : Frame) (older : List Frame) (h : Heap) :
    setHeapIn older.length h (f :: older) = { f with heap := h } :: older := by
  simp [setHeapIn]

/-- The frames below are not touched by what is younger than them. -/
theorem heapIn_cons_of_lt {f : Frame} {older : List Frame} {place : Nat}
    (h : place < older.length) : heapIn place (f :: older) = heapIn place older := by
  rw [heapIn, if_neg (Nat.ne_of_gt h)]

theorem setHeapIn_cons_of_lt {f : Frame} {older : List Frame} {place : Nat} {h : Heap}
    (hlt : place < older.length) :
    setHeapIn place h (f :: older) = f :: setHeapIn place h older := by
  rw [setHeapIn, if_neg (Nat.ne_of_gt hlt)]

end CallStack

/-! ## A machine as the interpreter sees it -/

/-- An activation as a context whose frame has `place` frames below it. -/
def Activation.context (a : Activation) (place : Nat) : Context where
  name := a.name
  program := a.program
  labels := a.labels
  place := place
  scope := a.scope
  home := a.home
  params := a.params
  recording := a.recording

/-- The answer that stands for a signal. -/
def Signal.answer : Signal → Answer
  | next => .next
  | jump position => .jump position
  | ret v => .ret v
  | print v line => .print v line
  | fault c => .fault (.new c)

namespace Machine

/-- What the activations of a machine have in common. -/
def world (m : Machine) : World := ⟨m.callStack, m.store, m.log, m.delivered, m.events⟩

/-- The context of the running activation. -/
def context (m : Machine) : Context := m.current.context m.callers.length

/-- Let an activation wait for a call. -/
def enter (m : Machine) (a callee : Activation) : Machine :=
  { m with current := callee, callers := a :: m.callers }

/-- End the call that the activation `a` waits for. -/
def back (m : Machine) (a : Activation) (rest : List Activation) (v : Option Value) : Machine :=
  { m with current := resume a m.current.result v, callers := rest }

variable {cfg : Config} {m m' m₁ : Machine} {n : Nat}

@[simp]
theorem places_world (m : Machine) : m.world.places = m.callers.length + 1 := by
  simp [World.places, world, callStack, activations]

/-- The running activation has its variables in the youngest frame. -/
@[simp]
theorem heap_world (m : Machine) : m.world.heap m.callers.length = m.current.heap := by
  have hlen : m.callers.length = (m.callers.map (·.frame)).length := by simp
  simp only [World.heap, world, callStack, activations, List.map_cons]
  rw [hlen, CallStack.heapIn_cons_self]
  rfl

theorem setHeap_world (m : Machine) (h : Heap) :
    m.world.setHeap m.callers.length h = { m with current := m.current.withHeap h }.world := by
  have hlen : m.callers.length = (m.callers.map (·.frame)).length := by simp
  simp only [World.setHeap, world, callStack, activations, List.map_cons]
  rw [hlen, CallStack.setHeapIn_cons_self]
  rfl

/-- The one that waits has its variables in the frame below. -/
theorem heap_world_caller {a : Activation} {rest : List Activation}
    (hc : m.callers = a :: rest) : m.world.heap rest.length = a.heap := by
  have hbelow : m.world.heap rest.length = (m.backTo a rest).world.heap rest.length := by
    simp only [World.heap, world, callStack, activations, backTo, hc, List.map_cons]
    exact CallStack.heapIn_cons_of_lt (by simp)
  rw [hbelow]
  exact heap_world (m.backTo a rest)

/-- Popping the youngest frame goes back to the one that waits. -/
theorem pop_world {a : Activation} {rest : List Activation} (hc : m.callers = a :: rest) :
    m.world.pop = .ok (m.backTo a rest).world := by
  simp only [World.pop, world, callStack, activations, backTo, hc, List.map_cons, CallStack.pop]

theorem pop_setHeap_world {a : Activation} {rest : List Activation} {h : Heap}
    (hc : m.callers = a :: rest) :
    (m.world.setHeap rest.length h).pop = .ok (m.backTo (a.withHeap h) rest).world := by
  have hlt : rest.length < (a.frame :: rest.map (·.frame)).length := by simp
  have hlen : rest.length = (rest.map (·.frame)).length := by simp
  simp only [World.pop, World.setHeap, world, callStack, activations, backTo, hc, List.map_cons,
    CallStack.setHeapIn_cons_of_lt hlt, CallStack.pop]
  rw [hlen, CallStack.setHeapIn_cons_self]
  rfl

end Machine

/-! ## Instructions -/

namespace Context

variable {cfg : Config} {m : Machine}

/-- How the interpreter comes back from an instruction that has an effect in a machine, if `loop`
runs the body of a procedure. -/
def comesBack (loop : Context → World → Nat → Returns Ending) (m : Machine) :
    Effect → Returns Answer
  | .signal a s sig =>
    let m : Machine := { m with current := a, store := s }
    m.context.answer m.world sig.answer
  | .enter a callee =>
    let m₁ := m.enter a callee
    let (_, w, ending) := loop m₁.context m₁.world m₁.current.pc
    (a.context m.callers.length).finishCall callee.result w ending
  | .overflow => (m.context, m.world, .error .overflow)

variable {loop : Context → World → Nat → Returns Ending}

/-- The frame that is pushed for a call is that of the callee, once its arguments are bound. -/
theorem push_setHeap_world (m : Machine) (a : Activation) (p : Procedure) (home : List Scope)
    (args : List Value) (result : String) (ha : a.frame = m.current.frame) :
    (m.world.push p.name).setHeap (m.callers.length + 1)
        (((m.world.push p.name).heap (m.callers.length + 1)).bind args) =
      (m.enter a (.ofCall (m.current.frame.depth + 1) p home args result)).world := by
  have hframes : (m.world.push p.name).calls.frames =
      ⟨p.name, m.current.frame.depth + 1, .empty⟩ :: m.world.calls.frames := rfl
  rw [← m.places_world]
  simp only [World.setHeap, World.heap, World.places, hframes, CallStack.heapIn_cons_self,
    CallStack.setHeapIn_cons_self]
  simp only [World.push, Machine.world, Machine.enter, Machine.callStack, Machine.activations,
    Activation.ofCall, List.map_cons, ha]

/-- A call pushes a frame with the arguments where the machine puts an activation on its stack. -/
theorem call_eq (m : Machine) (limit : Nat) (proc : String) (count : Option Nat)
    (result : Option String) :
    m.context.call limit (fun callee w => loop callee.scanLabels w 0) m.world proc count result =
      comesBack loop m (m.current.call limit m.store proc count result) := by
  have hdepth : ((limit : Int) ≤ m.world.calls.depth) = (limit ≤ m.current.frame.depth) :=
    propext Int.ofNat_le
  have hscopes : m.context.scopes = m.current.scopes := rfl
  have hparams : m.context.params = m.current.params := rfl
  unfold call Activation.call
  simp only [hdepth, hscopes, hparams]
  cases Scope.resolve? proc m.current.scopes with
  | none => rfl
  | some found =>
    obtain ⟨p, home⟩ := found
    dsimp only
    cases count.filter fun n => (n : Int) ≠ p.arity with
    | some n => rfl
    | none =>
      dsimp only
      split
      · rfl
      · cases ht : m.current.params.take p.arity with
        | mk args params =>
          cases args with
          | none => rfl
          | some args =>
            -- the callee starts with the labels of its body in the frame that was pushed
            dsimp only
            have hw := push_setHeap_world m { m.current with params := params } p home args
              (result.getD defaultResult) rfl
            simp only [heap, new, m.places_world, hw]
            rfl

/-- An instruction does in a context what it does in the running activation. -/
theorem execute_eq (m : Machine) (limit : Nat) (ins : Instr) :
    m.context.execute limit (fun callee w => loop callee.scanLabels w 0) m.world m.current.pc ins =
      comesBack loop m (m.current.execute limit m.store ins) := by
  have hheap : m.context.heap m.world = m.current.heap := m.heap_world
  have hstore : m.world.store = m.store := rfl
  induction ins with
  | noop => rfl
  | ifThen cond action ih =>
    simp only [execute, Activation.execute, hheap, hstore]
    cases cond.eval m.current.heap m.store with
    | error c => rfl
    | ok v =>
      dsimp only
      split
      · exact ih
      · rfl
  | print x | expression x =>
    simp only [execute, Activation.execute, hheap, hstore]
    cases x.eval m.current.heap m.store <;> rfl
  | ret x =>
    cases x with
    | none => rfl
    | some x =>
      simp only [execute, Activation.execute, hheap, hstore]
      cases x.eval m.current.heap m.store <;> rfl
  | goto label =>
    have hlabels : m.context.labels = m.current.labels := rfl
    simp only [execute, Activation.execute, hlabels]
    cases m.current.labels.lookup? (Text.Utf8.encode label) <;> rfl
  | call proc count result => exact call_eq m limit proc count result
  | param x =>
    have hparams : m.context.params = m.current.params := rfl
    simp only [execute, Activation.execute, hheap, hstore, hparams]
    cases x.eval m.current.heap m.store with
    | error c => rfl
    | ok v =>
      dsimp only
      cases m.current.params.push? m.store v <;> rfl
  | beginFunc name arity => rfl
  | endFunc => rfl
  | assign target x =>
    simp only [execute, Activation.execute, hheap, hstore]
    cases x.eval m.current.heap m.store with
    | error c => rfl
    | ok v =>
      have hset : ∀ h, m.world.setHeap m.context.place h =
          { m with current := m.current.withHeap h }.world := m.setHeap_world
      simp only [hset]
      cases (target.write m.current.heap m.store v).2.2 <;> rfl

/-- Carrying out a line recovers from what the body of a procedure fails with. -/
theorem step_eq (cfg : Config) (m : Machine) (l : Line) :
    m.context.step cfg (fun callee w => loop callee.scanLabels w 0) m.world m.current.pc l =
      recover cfg (comesBack loop m (m.effect cfg l)) := by
  unfold step Machine.effect Activation.effect
  cases l.instr with
  | error e => rfl
  | ok ins => exact congrArg (recover cfg) (execute_eq m cfg.maxDepth ins)

/-- A line is recorded by an activation and by its context alike. -/
theorem record_eq {r : Recording} (l : Line) (hr : m.current.recording = some r) :
    m.context.record l = some { m with current := (m.current.record r l).advance }.context := by
  have hrec : m.context.recording = some r := hr
  have hend : (l.closes && Program.depthAfter r.depth l == 0) = (l.closes && r.depth ≤ 1) := by
    cases hcl : l.closes with
    | true =>
      rw [Program.depthAfter_of_closes _ hcl, Bool.eq_iff_iff]
      simp [Nat.sub_eq_zero_iff_le]
    | false => rfl
  unfold record Activation.record
  simp only [hrec, hend]
  split <;> rfl

theorem record_eq_none (l : Line) (hr : m.current.recording = none) :
    m.context.record l = none := by
  have hrec : m.context.recording = none := hr
  simp only [record, hrec]

/-! ## Ends of calls -/

section Ends

variable {a : Activation} {rest : List Activation}

theorem finishCall_returned (hc : m.callers = a :: rest) (v : Value) :
    (a.context rest.length).finishCall m.current.result m.world (.ok (.returned v)) =
      (m.back a rest (some v)).context.answer (m.back a rest (some v)).world .next := by
  have hplace : (a.context rest.length).place = rest.length := rfl
  have hheap : (a.context rest.length).heap m.world = a.heap := Machine.heap_world_caller hc
  simp only [finishCall, hplace, hheap]
  cases hv : v.isDefined with
  | true =>
    simp only [leave, if_true, Machine.pop_setHeap_world hc, Machine.back, Machine.resume,
      Option.filter, hv]
    rfl
  | false =>
    simp only [leave, Bool.false_eq_true, if_false, Machine.pop_world hc, Machine.back,
      Machine.resume, Option.filter, hv]
    rfl

theorem finishCall_fellOff (hc : m.callers = a :: rest) :
    (a.context rest.length).finishCall m.current.result m.world (.ok .fellOff) =
      (m.back a rest none).context.answer (m.back a rest none).world .next := by
  simp only [finishCall, leave, Machine.pop_world hc]
  rfl

/-- A fault that has halted the body of a procedure is handed on. -/
theorem finishCall_halted (hc : m.callers = a :: rest) (result : String) (r : Raised) :
    (a.context rest.length).finishCall result m.world (.ok (.halted r)) =
      (m.backTo a rest).context.answer (m.backTo a rest).world (.fault r) := by
  simp only [finishCall, leave, Machine.pop_world hc]
  rfl

theorem finishCall_panic (hc : m.callers = a :: rest) (result : String) (message : String) :
    (a.context rest.length).finishCall result m.world (.error (.panic message)) =
      ((m.backTo a rest).context, (m.backTo a rest).world, .error (.panic message)) := by
  simp only [finishCall, leave, Machine.pop_world hc]
  rfl

end Ends

end Context

/-! ## Agreement -/

namespace Machine

/-- A later moment of the same call, or of the same run of the top level. -/
structure SameCall (m m' : Machine) : Prop where
  callers : m'.callers = m.callers
  result : m'.current.result = m.current.result

theorem SameCall.refl (m : Machine) : m.SameCall m := ⟨rfl, rfl⟩

/-- The step in which the running activation fails: that is a fault of the line that called it. -/
def breakOff (cfg : Config) (m : Machine) (message : String) : Step :=
  match m.callers with
  | [] => .escaped m message
  | a :: rest =>
    if cfg.strict then .escaped m.unwind message
    else raise cfg (m.backTo a rest) (.internal message)

variable {cfg : Config} {m m' m₁ m₂ : Machine} {n : Nat} {out : Returns Ending}

/-- If failures get through, it is all the same how many calls they get through. -/
theorem breakOff_of_strict (hs : cfg.strict = true) (message : String) :
    m.breakOff cfg message = .escaped m.unwind message := by
  unfold breakOff
  cases hc : m.callers with
  | nil => rw [unwind_of_callers hc]
  | cons a rest => simp only [hs, if_true]

theorem unwind_backTo {a : Activation} {rest : List Activation} (hc : m.callers = a :: rest) :
    (m.backTo a rest).unwind = m.unwind := by
  unfold unwind
  rw [bottom_backTo hc]
  rfl

/-- What a machine comes to whose running activation the interpreter runs with `n` steps. -/
inductive Agrees (cfg : Config) (m : Machine) (n : Nat) : Returns Ending → Prop where
  | returned {m₁ m' : Machine} {v : Value} (hsteps : Steps cfg m m₁) (hcall : m.SameCall m')
      (hlast : m₁.step cfg = m'.leave (some v)) :
      Agrees cfg m n (m'.context, m'.world, .ok (.returned v))
  | fellOff {m₁ m' : Machine} (hsteps : Steps cfg m m₁) (hcall : m.SameCall m')
      (hlast : m₁.step cfg = m'.leave none) :
      Agrees cfg m n (m'.context, m'.world, .ok .fellOff)
  /-- a fault that halts the run has been reported where it was raised -/
  | halted {m₁ m' : Machine} {f : Fault} (hsteps : Steps cfg m m₁) (hcall : m.SameCall m')
      (hhalt : cfg.halt = true)
      (hlast : m₁.step cfg = .done m'.unwind ⟨.undefined, false, some f⟩) :
      Agrees cfg m n (m'.context, m'.world, .ok (.halted ⟨f, true⟩))
  | panicked {m₁ m' : Machine} {message : String} (hsteps : Steps cfg m m₁)
      (hcall : m.SameCall m') (hlast : m₁.step cfg = m'.breakOff cfg message) :
      Agrees cfg m n (m'.context, m'.world, .error (.panic message))
  | overflow {m₁ : Machine} {c : Context} (hsteps : Steps cfg m m₁)
      (hlast : m₁.step cfg = .aborted m₁) :
      Agrees cfg m n (c, m₁.world, .error .overflow)
  /-- the machine has not come to an end either -/
  | outOfSteps {c : Context} {w : World} (hrun : (m.run cfg n).2 = .running) :
      Agrees cfg m n (c, w, .error .outOfSteps)

/-- A run that goes on after some steps went on after fewer. -/
theorem running_of_steps (hsteps : Steps cfg m m₁) (hstep : m₁.step cfg = .next m₂)
    (h : (m₂.run cfg n).2 = .running) : (m.run cfg (n + 1)).2 = .running := by
  obtain ⟨k, hk⟩ := run_of_steps hsteps
  have hlong : (m.run cfg (k + (n + 1))).2 = .running := by
    rw [run_add (by rw [hk]), hk, run, hstep]
    exact h
  by_contra hover
  have hsame := run_of_le (Nat.le_add_left (n + 1) k) hover
  exact hover (hsame ▸ hlong)

/-- What agrees from a later moment of the call on agrees from the earlier one on. -/
theorem Agrees.prepend (hsteps : Steps cfg m m₁) (hstep : m₁.step cfg = .next m₂)
    (hcall : m.SameCall m₂) (h : Agrees cfg m₂ n out) : Agrees cfg m (n + 1) out := by
  have hfirst : Steps cfg m m₂ := hsteps.tail hstep
  have htrans : ∀ {m'}, m₂.SameCall m' → m.SameCall m' := fun hcall' =>
    ⟨hcall'.callers.trans hcall.callers, hcall'.result.trans hcall.result⟩
  cases h with
  | returned hrest hcall' hlast => exact .returned (hfirst.trans hrest) (htrans hcall') hlast
  | fellOff hrest hcall' hlast => exact .fellOff (hfirst.trans hrest) (htrans hcall') hlast
  | halted hrest hcall' hhalt hlast =>
    exact .halted (hfirst.trans hrest) (htrans hcall') hhalt hlast
  | panicked hrest hcall' hlast => exact .panicked (hfirst.trans hrest) (htrans hcall') hlast
  | overflow hrest hlast => exact .overflow (hfirst.trans hrest) hlast
  | outOfSteps hrun => exact .outOfSteps (running_of_steps hsteps hstep hrun)

/-- The interpreter, given `n` steps, agrees with every machine. -/
def AllAgree (cfg : Config) (n : Nat) : Prop :=
  ∀ m : Machine, Agrees cfg m n (Context.loop cfg n m.context m.world m.current.pc)

/-- A fault is reported and ends the line or the run, in the interpreter as in the machine. -/
theorem Agrees.fault {c : Cause} (ih : AllAgree cfg n) (hsteps : Steps cfg m m₁)
    (hcall : m.SameCall m') (hstep : m₁.step cfg = m'.raise cfg c) :
    Agrees cfg m (n + 1)
      (Context.obey cfg (Context.loop cfg n) m'.current.pc (m'.context.fault m'.world c)) := by
  let m₂ := m'.deliver (.faulted (m'.faultOf c))
  have hfail : m'.world.fail cfg (.new c) m'.current.pc m'.context.name =
      (m₂.world, ⟨m'.faultOf c, true⟩, cfg.halt) := rfl
  have hcall₂ : m.SameCall m₂ := ⟨hcall.callers, hcall.result⟩
  rw [raise_eq] at hstep
  simp only [Context.fault, Context.answer, Context.obey, hfail]
  cases hh : cfg.halt with
  | true =>
    rw [hh, if_pos rfl] at hstep
    exact .halted hsteps hcall₂ hh hstep
  | false =>
    rw [hh, if_neg Bool.false_ne_true] at hstep
    exact .prepend hsteps hstep ⟨hcall.callers, hcall.result⟩ (ih m₂.advance)

/-- A record is delivered before the receiver can fail on it. -/
theorem emit_world (cfg : Config) (m : Machine) (v : Value) (line : Int) :
    m.world.emit cfg ⟨v, line, m.context.name⟩ =
      ((m.printed v line).world,
        if cfg.sinkFails (m.delivered + 1) then
          .error (.panic (cfg.sinkMessage (m.delivered + 1)))
        else .ok ()) := by
  have hdelivered : m.world.delivered = m.delivered := rfl
  unfold World.emit
  simp only [hdelivered]
  split <;> rfl

/-- The answer to a signal is obeyed as the machine handles the signal. -/
theorem Agrees.signal {l : Line} {a : Activation} {s : Store} {sig : Signal}
    (ih : AllAgree cfg n) (hl : m.At l) (he : m.effect cfg l = .signal a s sig) :
    Agrees cfg m (n + 1) (Context.obey cfg (Context.loop cfg n) m.current.pc
      (Context.comesBack (Context.loop cfg n) m (.signal a s sig))) := by
  have hstep := step_at cfg hl
  rw [he] at hstep
  cases sig with
  | next =>
    have hcont := Activation.Does.continues (does_of_effect he)
    have hpc : a.pc = m.current.pc := Activation.Does.pc (does_of_effect he)
    have hrest := ih { m with current := a.advance, store := s }
    rw [show a.advance.pc = m.current.pc + 1 from congrArg (· + 1) hpc] at hrest
    exact .prepend .refl hstep ⟨rfl, hcont.result⟩ hrest
  | jump position =>
    obtain ⟨rfl, rfl⟩ := eq_of_signal he (by simp)
    exact .prepend .refl hstep ⟨rfl, rfl⟩
      (ih { m with current := { m.current with pc := position } })
  | ret v =>
    obtain ⟨rfl, rfl⟩ := eq_of_signal he (by simp)
    exact .returned .refl (.refl m) hstep
  | print v line =>
    obtain ⟨rfl, rfl⟩ := eq_of_signal he (by simp)
    have hemit : m.step cfg = m.emit cfg v line := step_eq_emit hl he
    rw [emit_eq] at hemit
    have hworld := emit_world cfg m v line
    simp only [Context.comesBack, Context.answer, Signal.answer, Context.obey]
    cases hs : cfg.sinkFails (m.delivered + 1) with
    | false =>
      rw [hs] at hemit hworld
      rw [hworld]
      exact .prepend .refl hemit ⟨rfl, rfl⟩ (ih (m.printed v line).advance)
    | true =>
      have hcall : m.SameCall (m.printed v line) := ⟨rfl, rfl⟩
      rw [hs] at hemit hworld
      rw [hworld]
      exact .panicked .refl hcall hemit
  | fault c =>
    obtain ⟨rfl, rfl⟩ := eq_of_signal he (by simp)
    exact .fault ih .refl (.refl m) hstep

/-- The running line leaves the activation `a` waiting for a call. -/
structure Awaits (cfg : Config) (m : Machine) (a callee : Activation) : Prop where
  step : m.step cfg = .next (m.enter a callee)
  pc : a.pc = m.current.pc
  result : a.result = m.current.result

theorem awaits_of_effect {l : Line} {a callee : Activation} (hl : m.At l)
    (he : m.effect cfg l = .enter a callee) : m.Awaits cfg a callee := by
  have hstep := step_at cfg hl
  rw [he] at hstep
  cases does_of_effect he
  exact ⟨hstep, rfl, rfl⟩

section Awaits

variable {a callee : Activation}

/-- The one that waits is in the same call before and after. -/
theorem Awaits.sameCall (h : m.Awaits cfg a callee) (m' : Machine) :
    m.SameCall (m'.backTo a m.callers) :=
  ⟨rfl, h.result⟩

/-- The end of a call goes back to the one that waits for it. -/
theorem leave_of_callers {rest : List Activation} (hc : m.callers = a :: rest)
    (v : Option Value) : m.leave v = .next (m.back a rest v) := by
  simp only [leave, hc]
  rfl

/-- When a call has ended, the one that waits goes on with the next line. -/
theorem Agrees.after_end {v : Option Value} (ih : AllAgree cfg n) (h : m.Awaits cfg a callee)
    (hsteps : Steps cfg (m.enter a callee) m₁) (hc : m'.callers = a :: m.callers)
    (hlast : m₁.step cfg = m'.leave v) :
    Agrees cfg m (n + 1) (Context.loop cfg n (m'.back a m.callers v).context
      (m'.back a m.callers v).world (m.current.pc + 1)) := by
  rw [leave_of_callers hc] at hlast
  have hback := Activation.continues_resume a m'.current.result v
  have hpc : (m'.back a m.callers v).current.pc = m.current.pc + 1 := by
    rw [← h.pc]
    exact Activation.resume_pc a m'.current.result v
  rw [← hpc]
  exact .prepend (.head h.step hsteps) hlast ⟨rfl, hback.result.trans h.result⟩ (ih _)

/-- A fault that has halted the body has been reported, so that the one that waits halts without
reporting it again. -/
theorem Agrees.after_halt {f : Fault} (h : m.Awaits cfg a callee)
    (hsteps : Steps cfg (m.enter a callee) m₁) (hc : m'.callers = a :: m.callers)
    (hhalt : cfg.halt = true)
    (hlast : m₁.step cfg = .done m'.unwind ⟨.undefined, false, some f⟩) :
    Agrees cfg m (n + 1) (Context.obey cfg (Context.loop cfg n) m.current.pc
      ((m'.backTo a m.callers).context.answer (m'.backTo a m.callers).world
        (.fault ⟨f, true⟩))) := by
  have hfail : ∀ w proc, World.fail cfg w ⟨f, true⟩ m.current.pc proc =
      (w, ⟨f, true⟩, true) := by
    simp [World.fail, hhalt]
  rw [← unwind_backTo hc] at hlast
  simp only [Context.answer, Context.obey, hfail]
  exact .halted (.head h.step hsteps) (h.sameCall m') hhalt hlast

/-- A failure in the body is a fault of the line that waits, or it gets through to the line that
waits for this one. -/
theorem Agrees.after_panic {message : String} (ih : AllAgree cfg n) (h : m.Awaits cfg a callee)
    (hsteps : Steps cfg (m.enter a callee) m₁) (hc : m'.callers = a :: m.callers)
    (hlast : m₁.step cfg = m'.breakOff cfg message) :
    Agrees cfg m (n + 1) (Context.obey cfg (Context.loop cfg n) m.current.pc
      (Context.recover cfg ((m'.backTo a m.callers).context, (m'.backTo a m.callers).world,
        .error (.panic message)))) := by
  cases hs : cfg.strict with
  | true =>
    rw [breakOff_of_strict hs, ← unwind_backTo hc, ← breakOff_of_strict hs] at hlast
    simp only [Context.recover, hs, if_true]
    exact .panicked (.head h.step hsteps) (h.sameCall m') hlast
  | false =>
    have hraise : m₁.step cfg = (m'.backTo a m.callers).raise cfg (.internal message) := by
      rw [hlast, breakOff, hc]
      simp [hs]
    simp only [Context.recover, hs]
    rw [← h.pc]
    exact .fault ih (.head h.step hsteps) (h.sameCall m') hraise

/-- The answer to a call is obeyed when the body of the procedure has been run. -/
theorem Agrees.call (ih : AllAgree cfg n) (h : m.Awaits cfg a callee) :
    Agrees cfg m (n + 1) (Context.obey cfg (Context.loop cfg n) m.current.pc
      (Context.recover cfg (Context.comesBack (Context.loop cfg n) m (.enter a callee)))) := by
  -- the machine is in front of the first line of the body
  have hbody := ih (m.enter a callee)
  simp only [Context.comesBack]
  generalize Context.loop cfg n (m.enter a callee).context (m.enter a callee).world
    (m.enter a callee).current.pc = out at hbody
  cases hbody with
  | @returned m₁ m' v hsteps hcall hlast =>
    have hfinish := Context.finishCall_returned hcall.callers v
    rw [hcall.result] at hfinish
    exact hfinish ▸ .after_end ih h hsteps hcall.callers hlast
  | @fellOff m₁ m' hsteps hcall hlast =>
    have hfinish := Context.finishCall_fellOff hcall.callers
    rw [hcall.result] at hfinish
    exact hfinish ▸ .after_end ih h hsteps hcall.callers hlast
  | @halted m₁ m' f hsteps hcall hhalt hlast =>
    have hfinish := Context.finishCall_halted hcall.callers callee.result ⟨f, true⟩
    exact hfinish ▸ .after_halt h hsteps hcall.callers hhalt hlast
  | @panicked m₁ m' message hsteps hcall hlast =>
    have hfinish := Context.finishCall_panic hcall.callers callee.result message
    exact hfinish ▸ .after_panic ih h hsteps hcall.callers hlast
  | overflow hsteps hlast => exact .overflow (.head h.step hsteps) hlast
  | outOfSteps hrun => exact .outOfSteps (by rw [run, h.step]; exact hrun)

end Awaits

/-- Recording a line does not touch what the activations have in common. -/
theorem record_world (r : Recording) (l : Line) :
    ({ m with current := (m.current.record r l).advance } : Machine).world = m.world := by
  have hframe : (m.current.record r l).advance.frame = m.current.frame := by
    unfold Activation.record
    split <;> rfl
  simp only [world, callStack, activations, List.map_cons, hframe]

/-- The interpreter runs an activation as the machine does that is in the middle of it.  The
induction is on the steps that the interpreter is given: it has fewer of them for the rest of the
lines, and for the body of a procedure. -/
theorem loop_agrees (cfg : Config) (n : Nat) (m : Machine) :
    Agrees cfg m n (Context.loop cfg n m.context m.world m.current.pc) := by
  induction n generalizing m with
  | zero => exact .outOfSteps rfl
  | succ n ih =>
    have hprogram : m.context.program = m.current.program := rfl
    cases hp : m.current.program[m.current.pc]? with
    | none =>
      simp only [Context.loop, hprogram, hp]
      exact .fellOff .refl (.refl m) (by simp only [step, hp])
    | some l =>
      cases hr : m.current.recording with
      | some r =>
        have hstep : m.step cfg = .next { m with current := (m.current.record r l).advance } := by
          simp only [step, hp, stepLine, hr]
        have hkept := Activation.continues_record (l := l) m.current r
        have hpc : (m.current.record r l).advance.pc = m.current.pc + 1 :=
          congrArg (· + 1) (Activation.record_pc m.current r l)
        have hrest := ih { m with current := (m.current.record r l).advance }
        rw [hpc, record_world] at hrest
        simp only [Context.loop, hprogram, hp, Context.record_eq l hr]
        exact .prepend .refl hstep ⟨rfl, hkept.result⟩ hrest
      | none =>
        have hl : m.At l := ⟨hp, hr⟩
        -- the answer is that to a signal, or that of a body, which has been run with fewer steps
        simp only [Context.loop, hprogram, hp, Context.record_eq_none l hr, Context.step_eq]
        cases he : m.effect cfg l with
        | signal a s sig => exact .signal ih hl he
        | enter a callee => exact .call ih (awaits_of_effect hl he)
        | overflow => exact .overflow .refl (by rw [step_at cfg hl, he])

/-- Whether the body of a procedure ends, halts or fails, the frames that were pushed for it have
been popped, and those below are what they were before. -/
theorem frames_of_loop {c : Context} {w : World} {o : Except Break Ending}
    (h : Context.loop cfg n m.context m.world m.current.pc = (c, w, o))
    (hroom : o ≠ .error .overflow) (hsteps : o ≠ .error .outOfSteps) :
    ∃ f, w.calls.frames = f :: m.callers.map (·.frame) := by
  have hagrees := loop_agrees cfg n m
  rw [h] at hagrees
  have hframes : ∀ m', m.SameCall m' →
      ∃ f, m'.world.calls.frames = f :: m.callers.map (·.frame) := by
    intro m' hcall
    exact ⟨m'.current.frame, by rw [← hcall.callers]; rfl⟩
  cases hagrees with
  | returned _ hcall _ | fellOff _ hcall _ | halted _ hcall _ _ | panicked _ hcall _ =>
    exact hframes _ hcall
  | overflow => exact absurd rfl hroom
  | outOfSteps => exact absurd rfl hsteps

/-! ## Runs of the top level -/

/-- The interpreter has come to where the machine has ended.  After a copy without an end there is
no context to go on with. -/
structure SameEnd (m : Machine) (o : Outcome) (out : Returns Ending) : Prop where
  outcome : Ending.outcome out.2.2 = o
  world : out.2.1 = m.world
  context : o ≠ .aborted → out.1 = m.context ∧ m.callers = []

/-- If the interpreter has no steps left, neither has the machine. -/
theorem Agrees.running (h : Agrees cfg m n out) (ho : Ending.outcome out.2.2 = .running) :
    (m.run cfg n).2 = .running := by
  cases h with
  | outOfSteps hrun => exact hrun
  | returned | fellOff | halted | panicked | overflow => cases ho

/-- If the interpreter comes to an end at the top level, the machine comes to the same end. -/
theorem Agrees.ends (hc : m.callers = []) (h : Agrees cfg m n out)
    (ho : Ending.outcome out.2.2 ≠ .running) :
    ∃ N m' o, (∀ k ≥ N, m.run cfg k = (m', o)) ∧ SameEnd m' o out := by
  have hend : ∀ {m₁ m' : Machine} {o : Except Break Ending}, Steps cfg m m₁ → m.SameCall m' →
      m₁.run cfg 1 = (m', Ending.outcome o) → Ending.outcome o ≠ .running →
      ∃ N m₂ o', (∀ k ≥ N, m.run cfg k = (m₂, o')) ∧
        SameEnd m₂ o' (m'.context, m'.world, o) := by
    intro m₁ m' o hsteps hcall hlast ho
    obtain ⟨N, hN⟩ := run_of_stop hsteps hlast ho
    exact ⟨N, m', _, hN, rfl, rfl, fun _ => ⟨rfl, hcall.callers.trans hc⟩⟩
  cases h with
  | returned hsteps hcall hlast =>
    exact hend hsteps hcall
      (by simp [run, hlast, leave, hcall.callers, hc, Ending.outcome, Ending.result]) ho
  | fellOff hsteps hcall hlast =>
    exact hend hsteps hcall
      (by simp [run, hlast, leave, hcall.callers, hc, Ending.outcome, Ending.result]) ho
  | halted hsteps hcall _ hlast =>
    have hcallers := hcall.callers.trans hc
    exact hend hsteps hcall
      (by simp [run, hlast, unwind_of_callers hcallers, Ending.outcome, Ending.result]) ho
  | panicked hsteps hcall hlast =>
    exact hend hsteps hcall (by simp [run, hlast, breakOff, hcall.callers, hc, Ending.outcome]) ho
  | @overflow m₁ c hsteps hlast =>
    have hstop : m₁.run cfg 1 = (m₁, .aborted) := by simp [run, hlast]
    obtain ⟨N, hN⟩ := run_of_stop hsteps hstop (by simp)
    exact ⟨N, m₁, _, hN, rfl, rfl, fun h => absurd rfl h⟩
  | outOfSteps => exact absurd rfl ho

end Machine

namespace Engine

/-- Run a program at the top level by functions that call each other, from where the last run has
ended. -/
def interpret (e : Engine) (p : Program) (n : Nat) : Returns Ending :=
  Context.run e.config n { e.machine.context with program := p }
    { e.machine.world with events := #[] }

/-- More steps than are needed make no difference. -/
theorem interpret_of_le {e : Engine} {p : Program} {n k : Nat} (hle : n ≤ k)
    (ho : Ending.outcome (e.interpret p n).2.2 ≠ .running) : e.interpret p k = e.interpret p n := by
  rcases Context.loop_extends e.config hle _ _ 0 with hout | hsame
  · exact absurd (congrArg Ending.outcome hout) ho
  · exact hsame

/-- An engine whose program is run step by step and one whose program is run by functions that call
each other come to the same end.  The interpreter needs no more steps than the machine, and the
machine comes to an end if the interpreter does. -/
theorem interpret_agrees {e : Engine} (hc : e.machine.callers = []) (p : Program) :
    (∀ n e' o, e.execute p n = (e', o) → o ≠ .running →
      Machine.SameEnd e'.machine o (e.interpret p n)) ∧
    (∀ n, Ending.outcome (e.interpret p n).2.2 ≠ .running →
      ∃ N e' o, (∀ k ≥ N, e.execute p k = (e', o)) ∧
        Machine.SameEnd e'.machine o (e.interpret p n)) := by
  have hagrees : ∀ n, Machine.Agrees e.config (e.start p) n (e.interpret p n) := fun n =>
    Machine.loop_agrees e.config n (e.start p)
  have hstart : (e.start p).callers = [] := hc
  constructor
  · intro n e' o hrun ho
    obtain ⟨hrun, -⟩ := machine_execute hrun
    have hend : Ending.outcome (e.interpret p n).2.2 ≠ .running := by
      intro h
      exact ho (by rw [← (hagrees n).running h, hrun])
    obtain ⟨N, m', o', hlong, hsame⟩ := (hagrees n).ends hstart hend
    -- the machine has ended after `n` steps, and more steps change nothing
    have hmax := hlong _ (Nat.le_max_right n N)
    rw [Machine.run_of_le (Nat.le_max_left n N) (by rw [hrun]; exact ho), hrun] at hmax
    cases hmax
    exact hsame
  · intro n ho
    obtain ⟨N, m', o, hlong, hsame⟩ := (hagrees n).ends hstart ho
    exact ⟨N, { e with machine := m' }, o, fun k hk => by rw [execute, hlong k hk], hsame⟩

/-- A fault in the body of a procedure is reported once, with the place where it was raised, and
halts the caller as well. -/
example :
    ((new { halt := true }).interpret
      (.ofStrings ["BeginFunc f, 0", "print x", "EndFunc", "call f, 0"]) 6).2.2.toOption =
        some (.halted ⟨⟨.unknownVariable (.variable "x"), 1, "f"⟩, true⟩) := by
  decide +kernel

end Engine

end AddressCode
