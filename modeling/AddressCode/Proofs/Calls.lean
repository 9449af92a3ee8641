import AddressCode.Proofs.Runs
import Mathlib.Data.List.Chain

/-!
# AddressCode.Proofs.Calls — the stack of activations during a call

A step leaves the stack as it is, puts an activation onto it, or takes one off (`Machine.Shift`).
An activation keeps its name, depth, home, program, labels and result variable as long as it is on
the stack (`Activation.Continues`).

A call is the part of a run between the step that enters the callee and the one that takes it off
again: `Machine.Inside` are the states in between, and `Machine.Completes` adds the step that ends
the call.  While it lasts, the caller and everything below wait unchanged (`Inside.waits`).
-/

namespace AddressCode

/-! ## Activations over time -/

/-- `a'` is a later state of the activation `a`. -/
structure Activation.Continues (a a' : Activation) : Prop where
  name : a'.name = a.name
  depth : a'.frame.depth = a.frame.depth
  home : a'.home = a.home
  program : a'.program = a.program
  labels : a'.labels = a.labels
  result : a'.result = a.result

namespace Activation

variable {limit : Nat} {a a' : Activation} {s s' : Store} {l : Line}

theorem Continues.refl (a : Activation) : a.Continues a := ⟨rfl, rfl, rfl, rfl, rfl, rfl⟩

theorem Continues.trans {a₁ a₂ a₃ : Activation} (h : a₁.Continues a₂) (h' : a₂.Continues a₃) :
    a₁.Continues a₃ :=
  ⟨h'.name.trans h.name, h'.depth.trans h.depth, h'.home.trans h.home,
    h'.program.trans h.program, h'.labels.trans h.labels, h'.result.trans h.result⟩

/-- Going on with the next line keeps the activation. -/
theorem Continues.advance (h : a.Continues a') : a.Continues a'.advance :=
  ⟨h.name, h.depth, h.home, h.program, h.labels, h.result⟩

theorem continues_record (a : Activation) (r : Recording) : a.Continues (a.record r l) := by
  unfold record
  split <;> exact ⟨rfl, rfl, rfl, rfl, rfl, rfl⟩

theorem record_pc (a : Activation) (r : Recording) (l : Line) : (a.record r l).pc = a.pc := by
  unfold record
  split <;> rfl

theorem continues_resume (c : Activation) (result : String) (v : Option Value) :
    c.Continues (Machine.resume c result v) := by
  unfold Machine.resume
  split <;> exact ⟨rfl, rfl, rfl, rfl, rfl, rfl⟩

section Resume

variable (c : Activation) (result : String) (v : Option Value)

theorem resume_heap : (Machine.resume c result v).heap =
    match v.filter (·.isDefined) with
    | some v => c.heap.set result v
    | none => c.heap := by
  unfold Machine.resume
  cases v.filter (·.isDefined) <;> rfl

theorem resume_pc : (Machine.resume c result v).pc = c.pc + 1 := by
  unfold Machine.resume
  split <;> rfl

theorem resume_params : (Machine.resume c result v).params = c.params := by
  unfold Machine.resume
  split <;> rfl

theorem resume_recording : (Machine.resume c result v).recording = c.recording := by
  unfold Machine.resume
  split <;> rfl

theorem resume_scope : (Machine.resume c result v).scope = c.scope := by
  unfold Machine.resume
  split <;> rfl

end Resume

theorem Does.continues {sig : Signal} (hd : a.Does limit s l (.signal a' s' sig)) :
    a.Continues a' := by
  cases hd <;> exact ⟨rfl, rfl, rfl, rfl, rfl, rfl⟩

/-- Carrying out an instruction does not move the activation. -/
theorem Does.pc {sig : Signal} (hd : a.Does limit s l (.signal a' s' sig)) : a'.pc = a.pc := by
  cases hd <;> rfl

/-- An activation that waits for a call of `p`, which has taken its arguments. -/
def waiting (a : Activation) (p : Procedure) : Activation :=
  { a with params := ⟨a.params.values.drop p.arity.toNat⟩ }

theorem continues_waiting (a : Activation) (p : Procedure) : a.Continues (a.waiting p) :=
  ⟨rfl, rfl, rfl, rfl, rfl, rfl⟩

end Activation

/-- The home of a procedure that is found is a part of the scopes it is looked up in. -/
theorem Scope.resolve?_suffix {name : String} {scopes home : List Scope} {p : Procedure}
    (h : Scope.resolve? name scopes = some (p, home)) : home <:+ scopes := by
  induction scopes with
  | nil => cases h
  | cons s outer ih =>
    simp only [resolve?] at h
    split at h
    · cases h
      exact List.suffix_refl _
    · exact (ih h).trans (List.suffix_cons s outer)

namespace Machine

/-! ## Entering a call -/

/-- The running line calls the procedure `p` with the given home, and keeps what it returns in the
variable `result`. -/
inductive Calls (m : Machine) (p : Procedure) (home : List Scope) : String → Prop where
  | intro {l : Line} {proc : String} {count : Option Nat} {result : Option String} (hl : m.At l)
      (hcore : l.core? = some (.call proc count result))
      (hp : Scope.resolve? proc m.current.scopes = some (p, home)) :
      Calls m p home (result.getD defaultResult)

/-- What holds when a call enters the procedure `p`: `m₁` is the state in front of its first
line. -/
structure Enters (m : Machine) (p : Procedure) (home : List Scope) (result : String)
    (m₁ : Machine) : Prop where
  calls : m.Calls p home result
  enough : 0 ≤ p.arity ∧ p.arity ≤ m.current.params.values.length
  state : m₁ = { m with
    current := .ofCall (m.current.frame.depth + 1) p home
      (m.current.params.values.take p.arity.toNat) result
    callers := m.current.waiting p :: m.callers }

variable {cfg : Config} {m m₁ m₂ m' : Machine}

/-- A line calls one procedure. -/
theorem Calls.unique {p p' : Procedure} {home home' : List Scope} {result result' : String}
    (h : m.Calls p home result) (h' : m.Calls p' home' result') : p = p' := by
  obtain ⟨hl, hcore, hp⟩ := h
  obtain ⟨hl', hcore', hp'⟩ := h'
  obtain rfl := Option.some.inj (hl.line.symm.trans hl'.line)
  cases hcore.symm.trans hcore'
  cases hp.symm.trans hp'
  rfl

theorem Enters.callers {p : Procedure} {home : List Scope} {result : String}
    (h : m.Enters p home result m₁) : m₁.callers = m.current.waiting p :: m.callers := by
  rw [h.state]

/-- A call that passes all checks takes its arguments and enters the procedure. -/
theorem enters_of_effect {l : Line} {a callee : Activation} (hl : m.At l)
    (he : m.effect cfg l = .enter a callee) :
    ∃ p home result,
      m.Enters p home result { m with current := callee, callers := a :: m.callers } := by
  cases does_of_effect he with
  | @call _ _ _ p home _ _ hcore hp _ ht =>
    -- there were enough parameters, or the call would be a fault
    unfold Params.take? at ht
    split at ht
    · rename_i henough
      cases ht
      exact ⟨p, home, _, .intro hl hcore hp, henough, rfl⟩
    · cases ht

/-! ## The stack -/

/-- How a step changes the stack. -/
inductive Shift (m m' : Machine) : Prop where
  | stay (hc : m'.callers = m.callers) (ha : m.current.Continues m'.current)
  | push {p : Procedure} {home : List Scope} {result : String} (h : m.Enters p home result m')
  | pop {c : Activation} (hc : m.callers = c :: m'.callers) (ha : c.Continues m'.current)

theorem shift_of_step (hs : m.step cfg = .next m') : m.Shift m' := by
  cases takes_of_step hs with
  | @fallOff c rest _ hc => exact .pop hc (Activation.continues_resume c m.current.result none)
  | @record l r => exact .stay rfl (Activation.continues_record m.current r).advance
  | quiet _ he =>
    have hcont := Activation.Does.continues (does_of_effect he)
    exact .stay rfl hcont.advance
  | jump => exact .stay rfl ⟨rfl, rfl, rfl, rfl, rfl, rfl⟩
  | enter hl he =>
    obtain ⟨p, home, result, h⟩ := enters_of_effect hl he
    exact .push h
  | @ret l v c rest _ _ hc =>
    exact .pop hc (Activation.continues_resume c m.current.result (some v))
  | fault => exact .stay rfl (Activation.Continues.refl m.current).advance
  | print => exact .stay rfl (Activation.Continues.refl m.current).advance
  | @sinkFault _ _ c _ _ _ _ hc => exact .pop hc (Activation.Continues.refl c).advance

/-- A step that leaves more activations waiting enters a call. -/
theorem enters_of_step (hs : m.step cfg = .next m₁)
    (hlen : m.callers.length < m₁.callers.length) :
    ∃ p home result, m.Enters p home result m₁ := by
  cases shift_of_step hs with
  | stay hc _ =>
    rw [hc] at hlen
    omega
  | push h => exact ⟨_, _, _, h⟩
  | pop hc _ =>
    rw [hc, List.length_cons] at hlen
    omega

/-- What holds of all who wait holds of them after a step, if it holds of an activation that begins
to wait. -/
theorem waiting_of_step {P : Activation → Prop} (hs : m.step cfg = .next m')
    (hold : ∀ c ∈ m.callers, P c)
    (hnew : ∀ {p home result}, m.Enters p home result m' → P (m.current.waiting p)) :
    ∀ c ∈ m'.callers, P c := by
  intro c hc
  cases shift_of_step hs with
  | stay hcallers _ =>
    rw [hcallers] at hc
    exact hold c hc
  | push henter =>
    rw [henter.callers] at hc
    rcases List.mem_cons.mp hc with rfl | hc
    · exact hnew henter
    · exact hold c hc
  | pop hcallers _ => exact hold c (by simp [hcallers, hc])

/-- What holds between each activation and the one below it holds after a step, if it depends only
on what an activation keeps, and holds between a callee and its caller. -/
theorem isChain_of_step {R : Activation → Activation → Prop} (hs : m.step cfg = .next m')
    (hcont : ∀ {a a' c : Activation}, a.Continues a' → R a c → R a' c)
    (hnew : ∀ {p home result}, m.Enters p home result m' → R m'.current (m.current.waiting p))
    (h : m.activations.IsChain R) : m'.activations.IsChain R := by
  unfold activations at h ⊢
  cases shift_of_step hs with
  | stay hc ha =>
    rw [hc]
    rw [List.isChain_cons] at h ⊢
    exact ⟨fun c hmem => hcont ha (h.1 c hmem), h.2⟩
  | @push p _ _ henter =>
    rw [henter.callers, List.isChain_cons_cons]
    refine ⟨hnew henter, ?_⟩
    rw [List.isChain_cons] at h ⊢
    exact ⟨fun c hmem => hcont (m.current.continues_waiting p) (h.1 c hmem), h.2⟩
  | pop hc ha =>
    rw [hc, List.isChain_cons_cons] at h
    have htail := h.2
    rw [List.isChain_cons] at htail ⊢
    exact ⟨fun c hmem => hcont ha (htail.1 c hmem), htail.2⟩

/-- The scopes around each activation are those in which its caller looks procedures up, from some
scope on. -/
def Nested (m : Machine) : Prop := m.activations.IsChain fun a c => a.home <:+ c.scopes

theorem Nested.step (h : m.Nested) (hs : m.step cfg = .next m') : m'.Nested := by
  refine isChain_of_step hs ?_ ?_ h
  · intro a a' c hcont hac
    rw [hcont.home]
    exact hac
  · intro p home result henter
    obtain ⟨⟨_, _, hp⟩, _, rfl⟩ := henter
    exact Scope.resolve?_suffix hp

theorem nested_kept : Engine.Kept Nested where
  initial _ := List.isChain_singleton _
  launch inputs p h := by
    unfold Nested activations at h ⊢
    rw [List.isChain_cons] at h ⊢
    exact h
  step h hs := h.step hs
  stop h hstop := by
    obtain ⟨-, hcallers, -⟩ := hstop.spec
    unfold Nested activations
    rw [hcallers]
    exact List.isChain_singleton _

/-! ## During a call -/

/-- Steps each of which leaves at least `d` activations waiting. -/
def StepsAbove (cfg : Config) (d : Nat) : Machine → Machine → Prop :=
  Relation.ReflTransGen fun m m' => m.step cfg = .next m' ∧ d ≤ m'.callers.length

/-- In `m₂` the call that `m` makes has not ended. -/
def Inside (cfg : Config) (m m₂ : Machine) : Prop :=
  ∃ m₁, m.step cfg = .next m₁ ∧ m.callers.length < m₁.callers.length ∧
    StepsAbove cfg (m.callers.length + 1) m₁ m₂

/-- The step of `m₂` ends the call that `m` makes, and the run goes on in `m'`. -/
def Completes (cfg : Config) (m m₂ m' : Machine) : Prop :=
  Inside cfg m m₂ ∧ m₂.step cfg = .next m' ∧ m'.callers.length = m.callers.length

/-- A call goes on as long as its caller has to wait. -/
theorem Inside.tail (h : Inside cfg m m₁) (hs : m₁.step cfg = .next m₂)
    (hlen : m.callers.length + 1 ≤ m₂.callers.length) : Inside cfg m m₂ := by
  obtain ⟨w, hw, hup, hsteps⟩ := h
  exact ⟨w, hw, hup, hsteps.tail ⟨hs, hlen⟩⟩

/-- A run each of whose states has enough activations waiting. -/
theorem stepsAbove_of_run {d n : Nat} (h : (m.run cfg n).2 = .running)
    (hd : ∀ i < n, d ≤ (m.run cfg (i + 1)).1.callers.length) :
    StepsAbove cfg d m (m.run cfg n).1 := by
  induction n with
  | zero => exact .refl
  | succ n ih =>
    obtain ⟨hprev, hs⟩ := step_of_run h
    exact .tail (ih hprev fun i hi => hd i (Nat.lt_succ_of_lt hi)) ⟨hs, hd n (Nat.lt_succ_self n)⟩

/-- A call that the first of `n + 1` steps enters, and that has not ended after them. -/
theorem inside_of_run {n : Nat} (h : (m.run cfg (n + 1)).2 = .running)
    (hup : ∀ i < n + 1, m.callers.length < (m.run cfg (i + 1)).1.callers.length) :
    Inside cfg m (m.run cfg (n + 1)).1 := by
  cases hs : m.step cfg with
  | next m₁ =>
    have hrun : ∀ i, m.run cfg (i + 1) = m₁.run cfg i := by
      intro i
      rw [run, hs]
    rw [hrun] at h ⊢
    refine ⟨m₁, hs, ?_, stepsAbove_of_run h fun i hi => ?_⟩
    · have hfirst := hup 0 (Nat.succ_pos n)
      rw [hrun] at hfirst
      exact hfirst
    · rw [← hrun]
      exact hup (i + 1) (Nat.succ_lt_succ hi)
  | done _ _ => simp [run, hs] at h
  | escaped _ _ => simp [run, hs] at h
  | aborted _ => simp [run, hs] at h

/-- A call that a run of `n + 2` steps enters with its first and ends with its last one. -/
theorem completes_of_run {n : Nat} (h : (m.run cfg (n + 2)).2 = .running)
    (hup : ∀ i < n + 1, m.callers.length < (m.run cfg (i + 1)).1.callers.length)
    (hdown : (m.run cfg (n + 2)).1.callers.length = m.callers.length) :
    Completes cfg m (m.run cfg (n + 1)).1 (m.run cfg (n + 2)).1 := by
  obtain ⟨hprev, hlast⟩ := step_of_run h
  exact ⟨inside_of_run hprev hup, hlast, hdown⟩

/-- As long as the activations of `base` have to wait they stay at the bottom of the stack, with the
same activation on top of them. -/
theorem StepsAbove.stack {base : List Activation} {above : List Activation} {b : Activation}
    (h : StepsAbove cfg base.length m₁ m₂) (hstack : m₁.activations = above ++ b :: base) :
    ∃ above' b', m₂.activations = above' ++ b' :: base ∧ b.Continues b' := by
  induction h with
  | refl => exact ⟨above, b, hstack, .refl b⟩
  | @tail m₂ m₃ _ hs ih =>
    obtain ⟨hs, hlen⟩ := hs
    obtain ⟨xs, b', hacts, hcont⟩ := ih
    -- is `b'` running, or is it waiting as well?
    rcases xs with _ | ⟨x, xs⟩
    · obtain ⟨hcur, hcallers⟩ := List.cons.inj hacts
      cases shift_of_step hs with
      | stay hc ha =>
        refine ⟨[], m₃.current, ?_, hcont.trans (hcur ▸ ha)⟩
        simp [activations, hc, hcallers]
      | @push p _ _ henter =>
        rw [← hcur] at hcont
        refine ⟨[m₃.current], m₂.current.waiting p, ?_,
          hcont.trans (m₂.current.continues_waiting p)⟩
        simp [activations, henter.callers, hcallers]
      | pop hc _ =>
        -- the stack would be too low
        rw [← hcallers, hc, List.length_cons] at hlen
        omega
    · -- the steps of those on top of `b'` leave it alone, until the last of them is taken off
      obtain ⟨hcur, hcallers⟩ := List.cons.inj hacts
      cases shift_of_step hs with
      | stay hc ha =>
        refine ⟨m₃.current :: xs, b', ?_, hcont⟩
        simp [activations, hc, hcallers]
      | @push p _ _ henter =>
        refine ⟨m₃.current :: m₂.current.waiting p :: xs, b', ?_, hcont⟩
        simp [activations, henter.callers, hcallers]
      | pop hc ha =>
        rw [hc] at hcallers
        rcases xs with _ | ⟨y, ys⟩
        · obtain ⟨hc', hrest⟩ := List.cons.inj hcallers
          refine ⟨[], m₃.current, ?_, hcont.trans (hc' ▸ ha)⟩
          simp [activations, hrest]
        · obtain ⟨_, hrest⟩ := List.cons.inj hcallers
          refine ⟨m₃.current :: ys, b', ?_, hcont⟩
          simp [activations, hrest]

/-- Who is below an activation on the stack waits. -/
theorem callers_of_activations {base above : List Activation} {b : Activation}
    (h : m.activations = above ++ b :: base) : ∃ between, m.callers = between ++ base := by
  rcases above with _ | ⟨x, xs⟩
  · exact ⟨[], (List.cons.inj h).2⟩
  · refine ⟨xs ++ [b], ?_⟩
    rw [(List.cons.inj h).2, List.append_assoc]
    rfl

/-- During a call the caller waits without its arguments, on top of the same activations. -/
theorem Inside.waits (h : Inside cfg m m₂) :
    ∃ p home result m₁, m.step cfg = .next m₁ ∧ m.Enters p home result m₁ ∧
      StepsAbove cfg (m.callers.length + 1) m₁ m₂ ∧
      ∃ above b, m₂.activations = above ++ b :: m.current.waiting p :: m.callers ∧
        b.result = result := by
  obtain ⟨m₁, hs, hlen, hsteps⟩ := h
  obtain ⟨p, home, result, henter⟩ := enters_of_step hs hlen
  have hbase : m₁.activations = [] ++ m₁.current :: m.current.waiting p :: m.callers := by
    rw [henter.state]
    rfl
  obtain ⟨above, b, hacts, hcont⟩ := StepsAbove.stack hsteps hbase
  refine ⟨p, home, result, m₁, hs, henter, hsteps, above, b, hacts, ?_⟩
  rw [hcont.result, henter.state]
  rfl

/-- Every activation that waits has made a call at an earlier moment of the run, and waits since
then. -/
theorem call_of_waiting {m₀ : Machine} {c : Activation} {rest : List Activation}
    (hm : Steps cfg m₀ m) (hcallers : m₀.callers = []) (hc : c :: rest <:+ m.callers) :
    ∃ call p home result, Steps cfg m₀ call ∧ call.Calls p home result ∧ Inside cfg call m ∧
      c = call.current.waiting p ∧ rest = call.callers := by
  induction hm with
  | refl => simp [hcallers] at hc
  | @tail m₁ m₂ hsteps hs ih =>
    -- whoever waited before the step still waits for the same call
    have hold : c :: rest <:+ m₁.callers → ∃ call p home result, Steps cfg m₀ call ∧
        call.Calls p home result ∧ Inside cfg call m₂ ∧ c = call.current.waiting p ∧
        rest = call.callers := by
      intro hc₁
      obtain ⟨call, p, home, result, hcall, hcalls, hin, rfl, rfl⟩ := ih hc₁
      exact ⟨call, p, home, result, hcall, hcalls, hin.tail hs hc.length_le, rfl, rfl⟩
    cases shift_of_step hs with
    | stay hcallers _ =>
      rw [hcallers] at hc
      exact hold hc
    | pop hcallers _ =>
      apply hold
      rw [hcallers]
      exact hc.trans (List.suffix_cons _ _)
    | @push p home result henter =>
      have hc₂ := hc
      rw [henter.callers] at hc₂
      rcases List.suffix_cons_iff.mp hc₂ with heq | hc₁
      · obtain ⟨rfl, rfl⟩ := List.cons.inj heq
        have hlen : m₁.callers.length < m₂.callers.length := by
          rw [henter.callers, List.length_cons]
          exact Nat.lt_succ_self _
        exact ⟨m₁, p, home, result, hsteps, henter.calls, ⟨m₂, hs, hlen, .refl⟩, rfl, rfl⟩
      · exact hold hc₁

/-- The step that ends a call finds the callee on top of its caller. -/
theorem Completes.stack {p : Procedure} {above : List Activation} {b : Activation}
    (h : Completes cfg m m₂ m')
    (hacts : m₂.activations = above ++ b :: m.current.waiting p :: m.callers) :
    m₂.current = b ∧ m₂.callers = m.current.waiting p :: m.callers := by
  obtain ⟨-, hs, hlen⟩ := h
  have hlen₂ := congrArg List.length hacts
  simp only [activations, List.length_cons, List.length_append] at hlen₂
  -- a step takes off at most one activation
  have hnil : above = [] := by
    apply List.eq_nil_of_length_eq_zero
    cases shift_of_step hs with
    | stay hc _ =>
      rw [hc] at hlen
      omega
    | push henter =>
      rw [henter.callers, List.length_cons] at hlen
      omega
    | pop hc _ =>
      rw [hc, List.length_cons] at hlen₂
      omega
  rw [hnil] at hacts
  exact List.cons.inj hacts

end Machine

end AddressCode
