import AddressCode.Proofs.Calls
import AddressCode.Proofs.Separation

/-!
# AddressCode.Proofs.Isolation — a call leaves its caller alone

Since the arrays of all activations are apart (`Separation`), nothing that a callee does, and
nothing that is called from there, reaches the arrays of those who wait.  When the call ends, the
caller finds its variables, arrays, labels, recording and procedures as they were, but for the
arguments it has handed over and the variable that takes the result (`call_isolation`).
-/

namespace AddressCode

namespace Machine

variable {cfg : Config} {m m₁ m₂ m' : Machine}

/-! ## Arrays of those who wait -/

/-- As long as the activations of `base` have to wait their arrays stay as they are. -/
theorem StepsAbove.elements {base above : List Activation} {b : Activation}
    (h : StepsAbove cfg base.length m₁ m₂) (hsep : m₁.Separated)
    (hstack : m₁.activations = above ++ b :: base) :
    m₂.Separated ∧ ∀ a ∈ base, ∀ c ∈ a.footprint m₁.store,
      m₂.store.elements c = m₁.store.elements c := by
  induction h with
  | refl => exact ⟨hsep, fun _ _ _ _ => rfl⟩
  | @tail m₂ m₃ hprev hs ih =>
    obtain ⟨hsep₂, hkeep⟩ := ih
    refine ⟨hsep₂.step hs.1, ?_⟩
    intro a ha c hc
    -- `a` still waits, and holds the same arrays as in the beginning
    have hwait : a ∈ m₂.callers := by
      obtain ⟨xs, b', hacts, -⟩ := StepsAbove.stack hprev hstack
      obtain ⟨between, hcallers⟩ := callers_of_activations hacts
      rw [hcallers]
      exact List.mem_append_right between ha
    have hfoot : a.footprint m₂.store = a.footprint m₁.store :=
      Store.footprint_congr fun c hc => hkeep a ha c hc
    rw [hsep₂.elements_caller hs.1 hwait (hfoot ▸ hc)]
    exact hkeep a ha c hc

/-- During a call the arrays that the caller can still find stay as they are. -/
theorem Inside.elements {p : Procedure} {home : List Scope} {result : String}
    (hsep : m.Separated) (hs : m.step cfg = .next m₁) (henter : m.Enters p home result m₁)
    (hsteps : StepsAbove cfg (m.callers.length + 1) m₁ m₂) :
    ∀ a ∈ m.current.waiting p :: m.callers, ∀ c ∈ a.footprint m.store,
      m₂.store.elements c = m.store.elements c := by
  have hbase : m₁.activations = [] ++ m₁.current :: m.current.waiting p :: m.callers := by
    rw [henter.state]
    rfl
  have hstore : m₁.store = m.store := by rw [henter.state]
  have hkeep := (StepsAbove.elements hsteps (hsep.step hs) hbase).2
  rw [hstore] at hkeep
  exact hkeep

/-! ## The end of a call -/

/-- The value that the running line returns, if it is a return. -/
def returned? (cfg : Config) (m : Machine) : Option Value :=
  match m.current.program[m.current.pc]?, m.current.recording with
  | some l, none =>
    match m.effect cfg l with
    | .signal _ _ (.ret v) => some v
    | _ => none
  | _, _ => none

/-- What the caller finds in `m'` after the call of `p` that it made in `m`.  The call has given
back `v`, if it has given back something that is defined. -/
structure BackFromCall (m m' : Machine) (p : Procedure) (result : String) (v : Option Value) :
    Prop where
  enough : 0 ≤ p.arity ∧ p.arity ≤ m.current.params.values.length
  /-- the arguments are gone -/
  params : m'.current.params.values = m.current.params.values.drop p.arity.toNat
  /-- the result variable is set if there is a result -/
  heap : m'.current.heap =
    match v with
    | some v => m.current.heap.set result v
    | none => m.current.heap
  others : ∀ x, x ≠ result → m'.current.heap.tag? x = m.current.heap.tag? x
  /-- every array in the variables and in the remaining parameters has the elements it had -/
  elements : ∀ c ∈ (m.current.waiting p).footprint m.store,
    m'.store.elements c = m.store.elements c
  pc : m'.current.pc = m.current.pc + 1
  labels : m'.current.labels = m.current.labels
  recording : m'.current.recording = m.current.recording
  scope : m'.current.scope = m.current.scope
  home : m'.current.home = m.current.home
  callers : m'.callers = m.callers

/-- A step that takes off the running activation gives the caller what was returned, and changes
nothing else but the line of the caller. -/
theorem pop_spec {c : Activation} {rest : List Activation} (hs : m₂.step cfg = .next m')
    (hc : m₂.callers = c :: rest) (hlen : m'.callers.length = rest.length) :
    m'.callers = rest ∧ m'.store = m₂.store ∧
      m'.current = resume c m₂.current.result (m₂.returned? cfg) := by
  have hlen₂ : m₂.callers.length = rest.length + 1 := by rw [hc, List.length_cons]
  cases takes_of_step hs with
  | fallOff hend hc' =>
    obtain ⟨rfl, rfl⟩ := List.cons.inj (hc.symm.trans hc')
    refine ⟨rfl, rfl, ?_⟩
    simp [returned?, hend]
  | ret hl he hc' =>
    obtain ⟨rfl, rfl⟩ := List.cons.inj (hc.symm.trans hc')
    refine ⟨rfl, rfl, ?_⟩
    simp [returned?, hl.line, hl.quiet, he]
  | sinkFault hl he _ hc' =>
    -- a print returns nothing, so the caller is only moved to its next line
    obtain ⟨rfl, rfl⟩ := List.cons.inj (hc.symm.trans hc')
    refine ⟨rfl, rfl, ?_⟩
    simp [returned?, hl.line, hl.quiet, he, resume, deliver, backTo, advance]
  | enter =>
    simp only [List.length_cons] at hlen
    omega
  | _ =>
    -- every other step leaves the stack as high as it was
    change m₂.callers.length = rest.length at hlen
    omega

/-- The caller is back from its call. -/
theorem Completes.back (hsep : m.Separated) (h : Completes cfg m m₂ m') :
    ∃ p home result, m.Calls p home result ∧
      BackFromCall m m' p result ((m₂.returned? cfg).filter (·.isDefined)) := by
  obtain ⟨p, home, result, m₁, hs, henter, hsteps, above, b, hacts, hres⟩ := h.1.waits
  obtain ⟨hcur, hcallers⟩ := h.stack hacts
  obtain ⟨hcallers', hstore, hcur'⟩ := pop_spec h.2.1 hcallers h.2.2
  have hkeep := Inside.elements hsep hs henter hsteps (m.current.waiting p) (by simp)
  rw [hcur, hres] at hcur'
  have hcont := Activation.continues_resume (m.current.waiting p) result (m₂.returned? cfg)
  refine ⟨p, home, result, henter.calls, ?_⟩
  constructor
  case enough => exact henter.enough
  case params =>
    rw [hcur', Activation.resume_params]
    rfl
  case heap =>
    rw [hcur', Activation.resume_heap]
    rfl
  case others =>
    intro x hx
    rw [hcur', Activation.resume_heap]
    split
    · exact Heap.tag?_set_of_ne _ _ hx
    · rfl
  case elements =>
    rw [hstore]
    exact hkeep
  case pc =>
    rw [hcur', Activation.resume_pc]
    rfl
  case labels =>
    rw [hcur', hcont.labels]
    rfl
  case recording =>
    rw [hcur', Activation.resume_recording]
    rfl
  case scope =>
    rw [hcur', Activation.resume_scope]
    rfl
  case home =>
    rw [hcur', hcont.home]
    rfl
  case callers => exact hcallers'

/-! ## Isolation of calls -/

/-- At every moment of a run the activations share no array, and neither do the pending parameters.
So a call that ends, whatever was done in it, leaves its caller with the variables, arrays, labels,
recording and procedures it had, but for the arguments and the result. -/
theorem call_isolation {e : Engine} (he : e.Session) (hm : e.Reached m) :
    m.Isolated ∧ m.Nested ∧
      ∀ m₂ m', Completes e.config m m₂ m' → ∃ p home result, m.Calls p home result ∧
        BackFromCall m m' p result ((m₂.returned? e.config).filter (·.isDefined)) := by
  have hsep : m.Separated := separated_kept.reached he hm
  refine ⟨hsep.isolated, nested_kept.reached he hm, ?_⟩
  intro m₂ m' h
  exact h.back hsep

/-- A callee that writes to an array inside its argument, and returns that array. -/
def overwriting : Program := .ofStrings
  ["BeginFunc f, 1", "q = p0[1]", "q[0] = 7", "return q", "EndFunc",
    "b[0] = 2", "a[1] = b", "param a", "param b", "call f, 1"]

/-- The state of `overwriting` in front of its call. -/
def overwritingCall : Machine := ((Engine.new {}).run overwriting [] 9).1.machine

/-- After the call the arrays `a` and `b` are as before, one parameter is left, and the array of the
callee is in the result variable. -/
theorem call_isolation_overwriting :
    overwritingCall.Isolated ∧ ∃ p home result, overwritingCall.Calls p home result ∧
      BackFromCall overwritingCall (overwritingCall.run {} (2 + 2)).1 p result
        (some (.array (some 2))) := by
  have hfacts : ((Engine.new {}).run overwriting [] 9).2 = .running ∧
      (overwritingCall.run {} (2 + 2)).2 = .running ∧
      (∀ i < 2 + 1,
        overwritingCall.callers.length < (overwritingCall.run {} (i + 1)).1.callers.length) ∧
      (overwritingCall.run {} (2 + 2)).1.callers.length = overwritingCall.callers.length ∧
      ((overwritingCall.run {} (2 + 1)).1.returned? {}).filter (·.isDefined) =
        some (.array (some 2)) := by
    decide +kernel
  obtain ⟨hrun, hcall, hup, hdown, hreturned⟩ := hfacts
  have hsession : ((Engine.new {}).load overwriting).Session := .load (.new {}) overwriting
  have hreached : ((Engine.new {}).load overwriting).Reached overwritingCall :=
    Engine.reached_run (.new {}) overwriting [] 9 hrun
  have hcomplete : Completes {} overwritingCall (overwritingCall.run {} (2 + 1)).1
      (overwritingCall.run {} (2 + 2)).1 :=
    completes_of_run hcall hup hdown
  obtain ⟨hiso, -, hback⟩ := call_isolation hsession hreached
  refine ⟨hiso, ?_⟩
  have hend : ∃ p home result, overwritingCall.Calls p home result ∧
      BackFromCall overwritingCall (overwritingCall.run {} (2 + 2)).1 p result
        (((overwritingCall.run {} (2 + 1)).1.returned? {}).filter (·.isDefined)) :=
    hback _ _ hcomplete
  rw [hreturned] at hend
  exact hend

end Machine

end AddressCode
