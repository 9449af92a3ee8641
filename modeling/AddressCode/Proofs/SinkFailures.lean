import AddressCode.Proofs.Atomicity
import AddressCode.Proofs.Frames
import AddressCode.Proofs.OutputLog

/-!
# AddressCode.Proofs.SinkFailures — a failing receiver of output

A receiver of output that fails has got its record, and the record is in the log.  The line that
printed it does not take the failure.  Inside of a call it ends the activation that printed, and the
caller takes it as one fault of the line that made the call; the caller keeps its variables and goes
on, or the run is halted (`BackAtCall`).  At the top level nobody is left to take it: it ends the
run, and leaves the top level as it was before the print (`LeavesTop`).

`sink_failure_contained` says this for every moment of every run, so it covers any number of
failures in one run, at any depths.
-/

namespace AddressCode

namespace Machine

variable {cfg : Config} {m m₀ call back : Machine} {r : Record} {t : Option String}

/-! ## Inside of a call -/

/-- The caller has taken the failure at the record `r`, which was printed in `m`, as the fault `f`
of the call of `p` that it made in `call`. -/
structure BackAtCall (cfg : Config) (call : Machine) (p : Procedure) (m : Machine) (r : Record)
    (t : Option String) (f : Fault) (back : Machine) : Prop where
  log : back.log = m.log.push r
  /-- what was delivered is the record and the fault -/
  events : back.events = (m.events.push (.printed r t)).push (.faulted f)
  /-- the fault has what the receiver says, and the line and the procedure of the call -/
  fault : f = call.faultOf (.internal (cfg.sinkMessage (m.delivered + 1)))
  /-- the activation that printed is gone, and the one that called it runs, without arguments -/
  current : back.current = call.current.waiting p
  /-- the caller has its variables with their arrays, its labels, procedures and recording -/
  keeps : call.Keeps back.current back.callers back.store
  callStack : back.callStack = call.callStack

/-- A failure inside of a call is taken by the caller. -/
theorem step_of_failure (hprints : m.Prints cfg r t)
    (hfails : cfg.sinkFails (m.delivered + 1) = true) (hstrict : cfg.strict = false)
    {p : Procedure} {home : List Scope} {result : String} (hcalls : call.Calls p home result)
    (hsep : call.Separated) (hin : Inside cfg call m)
    (hc : m.callers = call.current.waiting p :: call.callers) :
    ∃ back f, BackAtCall cfg call p m r t f back ∧
      m.step cfg =
        if cfg.halt then .done back.unwind ⟨.undefined, false, some f⟩ else .next back.advance := by
  obtain ⟨l, v, hl, he, rfl, rfl⟩ := hprints
  have hs := step_of_print_fails hl he hfails hc
  simp only [hstrict, Bool.false_eq_true, if_false, raise_eq] at hs
  refine ⟨_, _, ?_, hs⟩
  constructor
  case log => rfl
  case events => rfl
  case fault => rfl
  case current => rfl
  case keeps => exact (hin.keeps hsep hcalls).1
  case callStack => rfl

/-! ## At the top level -/

/-- The failure at the record `r` has left the run from the top level of `m`. -/
structure LeavesTop (m : Machine) (r : Record) (t : Option String) (m' : Machine) : Prop where
  log : m'.log = m.log.push r
  events : m'.events = m.events.push (.printed r t)
  /-- the top level has its variables, procedures, parameters and recording -/
  current : m'.current = m.current
  store : m'.store = m.store
  callStack : m'.callStack.frames = [m.current.frame]

theorem step_of_failure_top (hprints : m.Prints cfg r t)
    (hfails : cfg.sinkFails (m.delivered + 1) = true) (hc : m.callers = []) :
    ∃ m', m.LeavesTop r t m' ∧
      m.step cfg = .escaped m' (cfg.sinkMessage (m.delivered + 1)) := by
  obtain ⟨l, v, hl, he, rfl, rfl⟩ := hprints
  refine ⟨_, ?_, step_of_print_escapes hl he hfails hc⟩
  constructor
  case log => rfl
  case events => rfl
  case current => rfl
  case store => rfl
  case callStack => simp [callStack, activations, printed, hc]

end Machine

namespace Engine

open Machine

variable {e : Engine} {m m₀ m' : Machine} {r : Record} {t : Option String}

/-! ## Operations after a failure -/

/-- A run that an engine has started and that ends leaves an engine of the session. -/
theorem Starts.session (hstart : e.Starts m₀) (he : e.Session) {n : Nat} {o : Outcome}
    (hrun : m₀.run e.config n = (m', o)) (ho : o.ended = true) :
    Session { e with machine := m' } := by
  cases hstart with
  | exec inputs =>
    have hexec : e.exec inputs n = ({ e with machine := m' }, o) := by
      unfold Engine.exec execute
      simp only [bind, reset] at hrun ⊢
      rw [hrun]
    exact .exec he hexec ho
  | runLine line inputs clear =>
    have hline : e.runLine line inputs clear n = ({ e with machine := m' }, o) := by
      unfold Engine.runLine execute
      cases clear with
      | true =>
        simp only [bind, reset, if_true] at hrun ⊢
        rw [hrun]
      | false =>
        simp only [bind, Bool.false_eq_true, if_false] at hrun ⊢
        rw [hrun]
    exact .runLine he hline ho

/-! ## Containment -/

/-- Let the receiver of output fail at a record, in a run that lets failures be taken.

If the record was printed inside of a call, the failure ends the activation that printed, and
nothing else: the caller takes it as one fault of the line of its call, keeps its variables, gets no
result, and goes on with the next line; or that fault halts the run.

If the record was printed at the top level, the failure ends the run.  It leaves the top level as it
was before the print, and the lines run afterwards find that state. -/
theorem sink_failure_contained (he : e.Session) (hstrict : e.config.strict = false)
    (hstart : e.Starts m₀) (hm : Steps e.config m₀ m) (hprints : m.Prints e.config r t)
    (hfails : e.config.sinkFails (m.delivered + 1) = true) :
    (m.callers ≠ [] → ∃ call p home result back f,
      Steps e.config m₀ call ∧ call.Calls p home result ∧ Inside e.config call m ∧
        m.callers = call.current.waiting p :: call.callers ∧
        BackAtCall e.config call p m r t f back ∧
        (e.config.halt = false → Completes e.config call m back.advance) ∧
        (e.config.halt = true → ∃ n, ∀ k ≥ n, m₀.run e.config k =
          (back.unwind, .finished ⟨.undefined, false, some f⟩))) ∧
    (m.callers = [] → ∃ m', m.LeavesTop r t m' ∧ AtTop m'.current ∧
      (∃ n, ∀ k ≥ n, m₀.run e.config k =
        (m', .escaped (e.config.sinkMessage (m.delivered + 1)))) ∧
      Session { e with machine := m' } ∧
      ∀ line inputs, Starts { e with machine := m' } (m'.launch inputs #[.ofPieces line])) := by
  obtain ⟨htop₀, hcallers₀⟩ := hstart.atTop he.used.atTop.1 he.used.atTop.2
  constructor
  · intro hcall
    obtain ⟨c, rest, hc⟩ := List.exists_cons_of_ne_nil hcall
    -- whoever waits on top of the others has made the call that prints
    have hsuffix : c :: rest <:+ m.callers := by simp [hc]
    obtain ⟨call, p, home, result, hbefore, hcalls, hin, rfl, rfl⟩ :=
      call_of_waiting hm hcallers₀ hsuffix
    have hsep : call.Separated := separated_kept.reached he ⟨m₀, hstart, hbefore⟩
    obtain ⟨back, f, hback, hs⟩ := step_of_failure hprints hfails hstrict hcalls hsep hin hc
    refine ⟨call, p, home, result, back, f, hbefore, hcalls, hin, hc, hback, ?_, ?_⟩
    · intro hgo
      rw [hgo] at hs
      have hlen : back.advance.callers.length = call.callers.length :=
        congrArg List.length hback.keeps.callers
      exact ⟨hin, hs, hlen⟩
    · intro hhalt
      rw [hhalt] at hs
      have hlast : m.run e.config 1 = (back.unwind, .finished ⟨.undefined, false, some f⟩) := by
        simp [Machine.run, hs]
      exact run_of_stop hm hlast (by simp)
  · intro hc
    obtain ⟨m', hleaves, hs⟩ := step_of_failure_top hprints hfails hc
    have hlast : m.run e.config 1 =
        (m', .escaped (e.config.sinkMessage (m.delivered + 1))) := by
      simp [Machine.run, hs]
    obtain ⟨n, hn⟩ := run_of_stop hm hlast (by simp)
    refine ⟨m', hleaves, ?_, ⟨n, hn⟩, hstart.session he (hn n (Nat.le_refl n)) rfl, ?_⟩
    · -- the top level is the activation that the run has started with
      have hlayered := (layered_of_atTop htop₀ hcallers₀).moments hm.moments
      have hbottom : m.bottom = m.current := by simp [Machine.bottom, hc]
      rw [hleaves.current, ← hbottom]
      exact htop₀.continues hlayered.bottom
    · intro line inputs
      exact .runLine line inputs false

/-- An engine whose receiver of output fails at the second and at the fourth record.  The second one
is printed in a procedure that is called by the action of an `if`, the fourth one at the top
level. -/
def failingTwice : Engine :=
  (Engine.new
    { sinkFails := fun n => n == 2 || n == 4
      sinkMessage := fun n => if n = 2 then "full" else "closed" }).load <| .ofStrings
    ["BeginFunc g, 0", "print 1", "print 2", "EndFunc", "BeginFunc f, 0", "print 3",
      "if 1 call g, 0", "print 4", "EndFunc", "call f, 0", "print 5"]

/-- The state in which its program is started. -/
def failingTwiceStart : Machine := (failingTwice.reset.bind []).start failingTwice.program

/-- The state after `n` steps of its program. -/
def failingTwiceAt (n : Nat) : Machine := (failingTwiceStart.run failingTwice.config n).1

theorem steps_failingTwiceAt {n : Nat}
    (h : (failingTwiceStart.run failingTwice.config n).2 = .running) :
    Steps failingTwice.config failingTwiceStart (failingTwiceAt n) :=
  steps_of_run (Prod.ext rfl h)

/-- The first failure is a fault of the second line of `f`, which goes on; the other one ends the
run at the top level. -/
theorem sink_failure_contained_twice :
    (∃ back : Machine, (failingTwiceAt 12).step failingTwice.config = .next back.advance ∧
      back.callers.length = 1 ∧
      back.events.toList.getLast? = some (.faulted ⟨.internal "full", 2, "f"⟩)) ∧
    ∃ m' : Machine, m'.log.size = 4 ∧ AtTop m'.current ∧
      ∃ n, failingTwiceStart.run failingTwice.config n = (m', .escaped "closed") := by
  have hfacts : (failingTwiceStart.run failingTwice.config 12).2 = .running ∧
      (failingTwiceStart.run failingTwice.config 15).2 = .running ∧
      (failingTwiceAt 12).callers.map (fun c => (c.pc, c.name)) = [(1, "f"), (9, rootName)] ∧
      (failingTwiceAt 15).callers.length = 0 ∧
      (failingTwiceAt 12).delivered = 1 ∧ (failingTwiceAt 15).delivered = 3 ∧
      (failingTwiceAt 12).log.size = 1 ∧ (failingTwiceAt 15).log.size = 3 ∧
      ((failingTwiceAt 12).step failingTwice.config).state.log.size = 2 ∧
      ((failingTwiceAt 15).step failingTwice.config).state.log.size = 4 := by
    decide +kernel
  obtain ⟨hrun, hrun', hcallers, hcallers', hdel, hdel', hlog, hlog', hnext, hnext'⟩ := hfacts
  have hsession : failingTwice.Session := .load (.new _) _
  have hstart : failingTwice.Starts failingTwiceStart := .exec []
  have hsteps := steps_failingTwiceAt hrun
  have hsteps' := steps_failingTwiceAt hrun'
  have hprint : ∃ r t, (failingTwiceAt 12).Prints failingTwice.config r t := by
    apply prints_of_log
    omega
  have hprint' : ∃ r t, (failingTwiceAt 15).Prints failingTwice.config r t := by
    apply prints_of_log
    omega
  obtain ⟨r, t, hprints⟩ := hprint
  obtain ⟨r', t', hprints'⟩ := hprint'
  constructor
  · have hfails : failingTwice.config.sinkFails ((failingTwiceAt 12).delivered + 1) = true := by
      rw [hdel]
      rfl
    have hcall : (failingTwiceAt 12).callers ≠ [] := by
      intro hnil
      rw [hnil] at hcallers
      cases hcallers
    obtain ⟨call, p, home, result, back, f, -, -, -, hc, hback, hgo, -⟩ :=
      (sink_failure_contained hsession rfl hstart hsteps hprints hfails).1 hcall
    rw [hc, List.map_cons] at hcallers
    obtain ⟨hplace, hrest⟩ := List.cons.inj hcallers
    obtain ⟨hpc, hname⟩ : call.current.pc = 1 ∧ call.current.name = "f" := Prod.mk.inj hplace
    refine ⟨back, (hgo rfl).2.1, ?_, ?_⟩
    · rw [hback.keeps.callers]
      simpa using congrArg List.length hrest
    · have hmessage : failingTwice.config.sinkMessage 2 = "full" := rfl
      simp [hback.events, hback.fault, faultOf, hpc, hname, hdel, hmessage]
  · have hfails : failingTwice.config.sinkFails ((failingTwiceAt 15).delivered + 1) = true := by
      rw [hdel']
      rfl
    have hcall : (failingTwiceAt 15).callers = [] := List.eq_nil_of_length_eq_zero hcallers'
    obtain ⟨m', hleaves, htop, ⟨n, hn⟩, -⟩ :=
      (sink_failure_contained hsession rfl hstart hsteps' hprints' hfails).2 hcall
    have hmessage : failingTwice.config.sinkMessage 4 = "closed" := rfl
    rw [hdel', hmessage] at hn
    refine ⟨m', ?_, htop, n, hn n (Nat.le_refl n)⟩
    rw [hleaves.log, Array.size_push, hlog']

end Engine

end AddressCode
