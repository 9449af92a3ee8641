import AddressCode.Proofs.Binding
import AddressCode.Proofs.Copies
import AddressCode.Proofs.Frames
import AddressCode.Proofs.Noninterference

/-!
# AddressCode.Proofs.Arguments — where the parameters go

A line that hands over a value puts a copy of it behind the parameters that wait in its activation,
and a call takes as many of them as the procedure has, from the front.  Parameters of several calls
may wait together, the parameters of a call that faults go on waiting, and a callee has parameters
of its own.

* `Machine.handed?` and `Machine.bound?` — what the step of a state hands over, and what it binds in
  a callee that it enters, both with the contents.
* `Machine.passes_of_step` — a step does one of four things with parameters.
* `Machine.Trace` — the states from which steps were taken since the last reset; `Machine.own` picks
  those in which a certain activation was running.
* `Machine.Balances` — along a trace, what the calls of an activation have bound and what waits in
  it is what it has handed over.  One step keeps all accounts (`Machine.balances_step`), and so does
  a trace (`Machine.Trace.balances`).
* `Machine.Rejects` — why a call is rejected; such a call takes nothing (`Machine.Rejects.keeps`).

The copies that wait cannot change: nothing else leads to their cells (`Machine.Copied`).  An
activation that is entered finds an empty account, because the states in which earlier ones at its
depth were running come before a state with fewer activations.
-/

namespace AddressCode

/-! ## The instruction that is carried out -/

/-- The instruction behind the conditions, if all of them are true. -/
def Instr.reached? (h : Heap) (s : Store) : Instr → Option Instr
  | .ifThen cond action =>
    match cond.eval h s with
    | .ok v => if v.truthy then action.reached? h s else none
    | .error _ => none
  | ins => some ins

theorem Instr.core_of_reached? {h : Heap} {s : Store} {ins core : Instr}
    (hins : ins.reached? h s = some core) : ins.core = core := by
  induction ins with
  | ifThen cond action ih =>
    simp only [reached?] at hins
    split at hins
    · split at hins
      · exact ih hins
      · cases hins
    · cases hins
  | _ =>
    cases hins
    rfl

/-- An instruction does what the one behind its conditions does, and a line whose conditions are not
all true changes nothing. -/
theorem Activation.execute_of_reached? (limit : Nat) (a : Activation) (s : Store) (ins : Instr) :
    (∀ core, ins.reached? a.heap s = some core → a.execute limit s ins = a.execute limit s core) ∧
      (ins.reached? a.heap s = none →
        ∃ sig, a.execute limit s ins = .signal a s sig ∧ (sig = .next ∨ ∃ c, sig = .fault c)) := by
  induction ins with
  | ifThen cond action ih =>
    simp only [Instr.reached?, execute]
    cases cond.eval a.heap s with
    | error c =>
      refine ⟨fun core hcore => ?_, fun _ => ⟨.fault c, rfl, Or.inr ⟨c, rfl⟩⟩⟩
      cases hcore
    | ok v =>
      cases hv : v.truthy with
      | true => simpa only [hv, if_true] using ih
      | false => simp [hv]
  | _ =>
    refine ⟨?_, fun hnone => by cases hnone⟩
    intro core hcore
    cases hcore
    rfl

namespace Machine

variable {cfg : Config} {m m' : Machine} {l : Line} {ins : Instr}

/-- The instruction that the running line carries out. -/
def instr? (m : Machine) : Option Instr :=
  match m.current.program[m.current.pc]?, m.current.recording with
  | some l, none => l.instr.toOption.bind fun ins => ins.reached? m.current.heap m.store
  | _, _ => none

theorem instr?_of_at (hl : m.At l) :
    m.instr? = l.instr.toOption.bind fun ins => ins.reached? m.current.heap m.store := by
  simp only [instr?, hl.line, hl.quiet]

/-- What is known of a line that carries out an instruction. -/
theorem at_of_instr? (h : m.instr? = some ins) :
    ∃ l, m.At l ∧ l.core? = some ins ∧
      ∀ cfg, m.effect cfg l = m.current.execute cfg.maxDepth m.store ins := by
  unfold instr? at h
  split at h
  · next l hline hquiet =>
    obtain ⟨whole, hwhole, hreached⟩ := Option.bind_eq_some_iff.mp h
    have hins : l.instr = .ok whole := by
      cases hl : l.instr with
      | error e =>
        rw [hl] at hwhole
        cases hwhole
      | ok ins' =>
        rw [hl] at hwhole
        rw [Option.some.inj hwhole]
    refine ⟨l, ⟨hline, hquiet⟩, ?_, fun cfg => ?_⟩
    · rw [Line.core?, hwhole, Option.map_some, Instr.core_of_reached? hreached]
    · rw [effect, Activation.effect, hins]
      exact (Activation.execute_of_reached? _ _ _ whole).1 ins hreached
  · cases h

/-- A line that carries out no instruction changes nothing. -/
theorem effect_of_instr?_none (cfg : Config) (hl : m.At l) (h : m.instr? = none) :
    ∃ sig, m.effect cfg l = .signal m.current m.store sig ∧
      (sig = .next ∨ ∃ c, sig = .fault c) := by
  rw [instr?_of_at hl] at h
  unfold effect Activation.effect
  cases hins : l.instr with
  | error e => exact ⟨_, rfl, Or.inr ⟨_, rfl⟩⟩
  | ok whole =>
    rw [hins] at h
    exact (Activation.execute_of_reached? _ _ _ whole).2 h

/-! ## What a step does with parameters -/

/-- A value together with what its content is now. -/
def snapshot (m : Machine) (v : Value) : Value × Content := (v, m.store.content v)

/-- The copy that the running line hands over for a later call, with the content of the value that
it is a copy of. -/
def handed? (m : Machine) : Option (Value × Content) :=
  match m.instr? with
  | some (.param x) =>
    match x.eval m.current.heap m.store with
    | .ok v => (m.store.clone? v).map fun copy => (copy.2, m.store.content v)
    | .error _ => none
  | _ => none

/-- The arguments of the call that the step of `m` enters, as the callee finds them: the values of
p0, p1 and so on, for as many parameters as the procedure has. -/
def bound? (cfg : Config) (m : Machine) : Option (List (Value × Content)) :=
  match m.step cfg, m.callee? with
  | .next m', some (p, _) =>
    if m.callers.length < m'.callers.length then
      some (((List.range p.arity.toNat).filterMap fun i =>
        m'.current.heap.lookup? (Heap.inputName i)).map m'.snapshot)
    else none
  | _, _ => none

/-- A line that hands over a value, and nothing else, adds a parameter to those that wait. -/
theorem handed?_spec {w : Value} {x : Content} (h : m.handed? = some (w, x)) :
    ∃ l v s, m.At l ∧ m.store.clone? v = some (s, w) ∧ x = m.store.content v ∧ ∀ cfg,
      m.effect cfg l =
        .signal { m.current with params := ⟨m.current.params.values ++ [w]⟩ } s .next := by
  unfold handed? at h
  split at h
  · next y hins =>
    obtain ⟨l, hl, -, heff⟩ := at_of_instr? hins
    split at h
    · next v hv =>
      obtain ⟨⟨s, w'⟩, hclone, heq⟩ := Option.map_eq_some_iff.mp h
      obtain ⟨rfl, rfl⟩ := Prod.mk.inj heq
      refine ⟨l, v, s, hl, hclone, rfl, fun cfg => ?_⟩
      simp only [heff, Activation.execute, hv, Params.push?, hclone, Option.map_some]
    · cases h
  · cases h

/-- A line that goes on without handing over a value leaves the parameters. -/
theorem params_of_handed?_none {a : Activation} {s : Store} (hl : m.At l)
    (he : m.effect cfg l = .signal a s .next) (h : m.handed? = none) :
    a.params = m.current.params := by
  cases hins : m.instr? with
  | none =>
    obtain ⟨sig, heff, -⟩ := effect_of_instr?_none cfg hl hins
    cases heff.symm.trans he
    rfl
  | some ins =>
    obtain ⟨l', hl', hcore, -⟩ := at_of_instr? hins
    obtain rfl := Option.some.inj (hl'.line.symm.trans hl.line)
    cases does_of_effect he with
    | param hparam hv hp =>
      obtain rfl := Option.some.inj (hcore.symm.trans hparam)
      obtain ⟨copy, hclone, -⟩ := Option.map_eq_some_iff.mp hp
      simp only [handed?, hins, hv, hclone, Option.map_some] at h
      cases h
    | _ => rfl

/-- Only a line that goes on hands over a value. -/
theorem handed?_eq_none {e : Effect} (hl : m.At l) (he : m.effect cfg l = e)
    (hnext : ∀ a s, e ≠ .signal a s .next) : m.handed? = none := by
  rw [Option.eq_none_iff_forall_ne_some]
  rintro ⟨w, x⟩ h
  obtain ⟨l', v, s, hl', -, -, heff⟩ := handed?_spec h
  obtain rfl := Option.some.inj (hl'.line.symm.trans hl.line)
  exact hnext _ _ (he.symm.trans (heff cfg))

theorem handed?_of_end (hend : m.current.program[m.current.pc]? = none) : m.handed? = none := by
  simp [handed?, instr?, hend]

theorem handed?_of_recording {r : Recording} (hr : m.current.recording = some r) :
    m.handed? = none := by
  simp [handed?, instr?, hr]

theorem bound?_eq_none (hs : m.step cfg = .next m') (hle : m'.callers.length ≤ m.callers.length) :
    m.bound? cfg = none := by
  unfold bound?
  rw [hs]
  split
  · next heq _ =>
    cases heq
    rw [if_neg (Nat.not_lt_of_le hle)]
  · rfl

theorem bound?_of_stops (h : Stops cfg m m') : m.bound? cfg = none := by
  unfold bound?
  rcases h with ⟨r, hs⟩ | ⟨message, hs⟩ <;> rw [hs]

/-- A run does not stop on handing over a value. -/
theorem handed?_of_stops (h : Stops cfg m m') : m.handed? = none := by
  rcases h with ⟨r, hs⟩ | ⟨message, hs⟩
  · cases takes_of_step hs with
    | finish hend _ => exact handed?_of_end hend
    | finishWith hl he _ => exact handed?_eq_none hl he (by simp)
    | halt hl he _ => exact handed?_eq_none hl he (by simp)
    | sinkHalt hl he _ _ _ => exact handed?_eq_none hl he (by simp)
  · cases takes_of_step hs with
    | escape hl he _ => exact handed?_eq_none hl he (by simp)

/-! ## Calls -/

theorem filterMap_getElem?_range {α : Type} (xs : List α) :
    (List.range xs.length).filterMap (fun i => xs[i]?) = xs := by
  induction xs with
  | nil => rfl
  | cons x xs ih =>
    rw [List.length_cons, List.range_succ_eq_map]
    simpa [List.filterMap_map, Function.comp_def] using ih

theorem callee?_of_calls {p : Procedure} {home : List Scope} {result : String}
    (h : m.Calls p home result) : m.callee? = some (p, home) := by
  obtain ⟨hl, hcore, hp⟩ := h
  simp only [callee?, hl.line, hl.quiet, hcore, hp]

/-- The callee that has been entered in `m'` has the arguments of `p` in its variables, and no other
variable: as many of the parameters of the caller as the procedure has, from the front. -/
structure TakesArgs (m m' : Machine) (p : Procedure) : Prop where
  split : m.current.params.values = m.args p ++ (m.current.waiting p).params.values
  count : ((m.args p).length : Int) = p.arity
  finds : ∀ name v, m'.current.heap.lookup? name = some v ↔
    ∃ i : Nat, name = Heap.inputName i ∧ (m.args p)[i]? = some v

theorem Enters.takesArgs {p : Procedure} {home : List Scope} {result : String}
    (h : m.Enters p home result m') (hdef : ∀ v ∈ m.current.params.values, v.isDefined = true) :
    m.TakesArgs m' p := by
  obtain ⟨-, ⟨hnonneg, henough⟩, rfl⟩ := h
  refine ⟨(List.take_append_drop _ _).symm, ?_, fun name v => ?_⟩
  · rw [args, List.length_take]
    omega
  · exact Heap.lookup?_bind fun v hv => hdef v (List.mem_of_mem_take hv)

/-- What the callee finds are the arguments. -/
theorem Enters.bound? {p : Procedure} {home : List Scope} {result : String}
    (h : m.Enters p home result m') (hs : m.step cfg = .next m')
    (hdef : ∀ v ∈ m.current.params.values, v.isDefined = true) :
    m.bound? cfg = some ((m.args p).map m.snapshot) := by
  have htakes := h.takesArgs hdef
  have hlen : m.callers.length < m'.callers.length := by
    rw [h.callers, List.length_cons]
    exact Nat.lt_succ_self _
  have hvars : ∀ i, m'.current.heap.lookup? (Heap.inputName i) = (m.args p)[i]? := by
    intro i
    apply Option.ext
    intro v
    rw [htakes.finds]
    constructor
    · rintro ⟨j, hname, hv⟩
      exact Heap.inputName_inj hname ▸ hv
    · exact fun hv => ⟨i, rfl, hv⟩
  have hcount : p.arity.toNat = (m.args p).length := by
    rw [← htakes.count, Int.toNat_natCast]
  have hstore : m'.snapshot = m.snapshot := by
    funext v
    rw [snapshot, h.state]
    rfl
  have hall : (List.range (m.args p).length).filterMap (fun i => (m.args p)[i]?) = m.args p := by
    exact filterMap_getElem?_range _
  simp only [Machine.bound?, hs, callee?_of_calls h.calls, if_pos hlen, hvars, hcount, hall, hstore]

/-! ## Steps -/

/-- The parameters that wait in an activation, with their contents now. -/
def pending (m : Machine) (a : Activation) : List (Value × Content) :=
  a.params.values.map m.snapshot

/-- All variables, parameters and elements of arrays are defined. -/
def Defined (m : Machine) : Prop := m.Holds Store.Filled fun _ v => v.isDefined = true

/-- What a step does with parameters. -/
inductive Passes (cfg : Config) (m m' : Machine) : Prop where
  /-- nothing -/
  | stay (hc : m'.callers = m.callers) (hp : m'.current.params = m.current.params)
      (hb : m.bound? cfg = none) (hh : m.handed? = none)
  /-- one more waits for a call -/
  | hand {w : Value} {x : Content} (hc : m'.callers = m.callers)
      (hp : m'.current.params.values = m.current.params.values ++ [w])
      (hb : m.bound? cfg = none) (hh : m.handed? = some (w, x)) (hx : m'.store.content w = x)
  /-- a call takes its arguments -/
  | enter {p : Procedure} {home : List Scope} {result : String} (h : m.Enters p home result m')
      (hb : m.bound? cfg = some ((m.args p).map m.snapshot)) (hh : m.handed? = none)
  /-- a caller goes on with its own -/
  | back {c : Activation} (hc : m.callers = c :: m'.callers)
      (hp : m'.current.params = c.params) (hb : m.bound? cfg = none) (hh : m.handed? = none)

theorem passes_of_step (h : m.Copied) (hdef : m.Defined) (hs : m.step cfg = .next m') :
    m.Passes cfg m' := by
  have hstay : m'.callers = m.callers → m.bound? cfg = none := by
    intro hc
    exact bound?_eq_none hs (Nat.le_of_eq (congrArg List.length hc))
  have hback : ∀ {c}, m.callers = c :: m'.callers → m.bound? cfg = none := by
    intro c hc
    refine bound?_eq_none hs ?_
    rw [hc]
    exact Nat.le_succ _
  cases takes_of_step hs with
  | fallOff hend hc =>
    exact .back hc (Activation.resume_params _ _ _) (hback hc) (handed?_of_end hend)
  | @record l r hl hr =>
    refine .stay rfl ?_ (hstay rfl) (handed?_of_recording hr)
    unfold Activation.record
    split <;> rfl
  | @quiet l a s hl he =>
    cases hh : m.handed? with
    | none =>
      have hp : a.params = m.current.params := params_of_handed?_none hl he hh
      exact .stay rfl hp (hstay rfl) hh
    | some copy =>
      obtain ⟨w, x⟩ := copy
      obtain ⟨l', v, s', hl', hclone, rfl, heff⟩ := handed?_spec hh
      obtain rfl := Option.some.inj (hl'.line.symm.trans hl.line)
      cases (heff cfg).symm.trans he
      have hcopy : s.Copy w m.store s (m.store.content v) :=
        ⟨hclone, h.ascends.store.contentFrom, Nat.le_refl _, fun _ _ _ => rfl⟩
      exact .hand rfl rfl (hstay rfl) hh hcopy.content
  | jump hl he => exact .stay rfl rfl (hstay rfl) (handed?_eq_none hl he (by simp))
  | enter hl he =>
    obtain ⟨p, home, result, henter⟩ := enters_of_effect hl he
    exact .enter henter (henter.bound? hs hdef.current.params) (handed?_eq_none hl he (by simp))
  | ret hl he hc =>
    exact .back hc (Activation.resume_params _ _ _) (hback hc) (handed?_eq_none hl he (by simp))
  | fault hl he _ => exact .stay rfl rfl (hstay rfl) (handed?_eq_none hl he (by simp))
  | print hl he _ => exact .stay rfl rfl (hstay rfl) (handed?_eq_none hl he (by simp))
  | sinkFault hl he _ hc _ =>
    exact .back hc rfl (hback hc) (handed?_eq_none hl he (by simp))

/-- What waits in an activation keeps its content. -/
theorem Copied.pending_step {a : Activation} (h : m.Copied) (hs : m.step cfg = .next m')
    (ha : a ∈ m.activations) : m'.pending a = m.pending a := by
  refine List.map_congr_left fun v hv => ?_
  rw [snapshot, snapshot, (h.params a ha v hv).content_update
    (h.separated.changes hs).size_le (h.separated.elements_param hs ha hv)]

/-! ## Accounts -/

/-- The states from which steps were taken since the last reset, in their order, up to a state: from
a clean state programs were launched, run and stopped. -/
inductive Trace (cfg : Config) : List Machine → Machine → Prop where
  | clean (k : Nat) : Trace cfg [] { Machine.initial with delivered := k }
  | launch {ms : List Machine} {m : Machine} (h : Trace cfg ms m) (hc : m.callers = [])
      (inputs : List Number) (p : Program) : Trace cfg ms (m.launch inputs p)
  | step {ms : List Machine} {m m' : Machine} (h : Trace cfg ms m) (hs : m.step cfg = .next m') :
      Trace cfg (ms ++ [m]) m'
  | stop {ms : List Machine} {m m' : Machine} (h : Trace cfg ms m) (hs : Stops cfg m m') :
      Trace cfg (ms ++ [m]) m'

/-- The states in which the activation was running that has `d` others below it now.  It is on the
stack since there were less than `d` last. -/
def own (d : Nat) (ms : List Machine) : List Machine :=
  ((ms.reverse.takeWhile fun m => d ≤ m.callers.length).filter fun m =>
    m.callers.length = d).reverse

/-- The account of the activation `a` with `d` others below it balances: what its calls have bound,
in their order, and behind it what waits for a call, is what it has handed over. -/
def Balances (cfg : Config) (ms : List Machine) (m : Machine) (a : Activation) (d : Nat) : Prop :=
  ((own d ms).filterMap (bound? cfg)).flatten ++ m.pending a = (own d ms).filterMap handed?

section Accounts

variable {ms : List Machine} {a a' : Activation} {d : Nat}

theorem own_concat_self (ms : List Machine) (m : Machine) :
    own m.callers.length (ms ++ [m]) = own m.callers.length ms ++ [m] := by
  simp [own]

theorem own_concat_of_lt (hd : d < m.callers.length) : own d (ms ++ [m]) = own d ms := by
  have hle : d ≤ m.callers.length := Nat.le_of_lt hd
  have hne : m.callers.length ≠ d := Nat.ne_of_gt hd
  simp [own, hle, hne]

theorem own_concat_of_gt (hd : m.callers.length < d) : own d (ms ++ [m]) = [] := by
  have hgt : ¬ d ≤ m.callers.length := Nat.not_le_of_lt hd
  simp [own, hgt]

/-- An account balances after a step if what the step binds, and behind it what waits then, is what
waited before, and behind it what the step hands over. -/
theorem Balances.tail (h : Balances cfg ms m a m.callers.length)
    (hnew : (m.bound? cfg).getD [] ++ m'.pending a' = m.pending a ++ m.handed?.toList) :
    Balances cfg (ms ++ [m]) m' a' m.callers.length := by
  have hb : ([m].filterMap (bound? cfg)).flatten = (m.bound? cfg).getD [] := by
    cases hb : m.bound? cfg <;> simp [hb]
  have hh : [m].filterMap handed? = m.handed?.toList := by
    cases hh : m.handed? <;> simp [hh]
  unfold Balances at h ⊢
  rw [own_concat_self, List.filterMap_append, List.filterMap_append, List.flatten_append, hb, hh,
    List.append_assoc, hnew, ← List.append_assoc, h]

/-- The account of an activation that waits stays as it is. -/
theorem Balances.wait (h : Balances cfg ms m a d) (hd : d < m.callers.length)
    (hp : m'.pending a' = m.pending a) : Balances cfg (ms ++ [m]) m' a' d := by
  unfold Balances at h ⊢
  rw [own_concat_of_lt hd, hp, h]

/-- What holds of an activation and those below it, and of the others that wait. -/
theorem forall_suffix_cons {P : Activation → List Activation → Prop} {top : Activation}
    {waiting : List Activation} (htop : P top waiting)
    (hwait : ∀ a below, a :: below <:+ waiting → P a below) :
    ∀ a below, a :: below <:+ top :: waiting → P a below := by
  intro a below ha
  rcases List.suffix_cons_iff.mp ha with heq | ha
  · obtain ⟨rfl, rfl⟩ := List.cons.inj heq
    exact htop
  · exact hwait a below ha

theorem balances_step (hcop : m.Copied) (hdef : m.Defined) (hs : m.step cfg = .next m')
    (h : ∀ a below, a :: below <:+ m.activations → Balances cfg ms m a below.length) :
    ∀ a below, a :: below <:+ m'.activations → Balances cfg (ms ++ [m]) m' a below.length := by
  have hcurrent := h m.current m.callers (List.suffix_refl _)
  have hpending : m'.pending m.current = m.pending m.current :=
    hcop.pending_step hs List.mem_cons_self
  have hwait : ∀ a below, a :: below <:+ m.callers →
      Balances cfg (ms ++ [m]) m' a below.length := by
    intro a below ha
    have hold := h a below (ha.trans (List.suffix_cons _ _))
    refine hold.wait ha.length_le (hcop.pending_step hs ?_)
    exact List.mem_cons_of_mem _ (ha.subset List.mem_cons_self)
  cases passes_of_step hcop hdef hs with
  | stay hc hp hb hh =>
    rw [activations, hc]
    refine forall_suffix_cons (hcurrent.tail ?_) hwait
    rw [hb, hh, pending, hp]
    simpa [pending] using hpending
  | @hand w x hc hp hb hh hx =>
    have hcopy : m'.snapshot w = (w, x) := by rw [snapshot, hx]
    rw [activations, hc]
    refine forall_suffix_cons (hcurrent.tail ?_) hwait
    rw [hb, hh, pending, hp, List.map_append, List.map_singleton, hcopy]
    simpa [pending] using hpending
  | @enter p home result henter hb hh =>
    have hnil : m'.pending m'.current = [] := by
      rw [henter.state]
      rfl
    have hsame : m'.pending (m.current.waiting p) = m.pending (m.current.waiting p) := by
      rw [henter.state]
      rfl
    rw [activations, henter.callers]
    refine forall_suffix_cons ?_ (forall_suffix_cons (hcurrent.tail ?_) hwait)
    · -- the callee has no account yet
      have hgt : m.callers.length < (m.current.waiting p :: m.callers).length := Nat.lt_succ_self _
      unfold Balances
      rw [own_concat_of_gt hgt, hnil]
      rfl
    · rw [hb, hh, hsame, Option.getD_some, pending, pending, ← List.map_append]
      simp [args, Activation.waiting]
  | @back c hc hp hb hh =>
    rw [hc] at hwait
    have hold := hwait c m'.callers (List.suffix_refl _)
    refine forall_suffix_cons ?_ fun a below ha => hwait a below (ha.trans (List.suffix_cons _ _))
    unfold Balances at hold ⊢
    rwa [pending, hp]

/-- What an engine cannot break holds along a trace. -/
theorem Trace.kept {P : Machine → Prop} (hk : Engine.Kept P) (h : Trace cfg ms m) : P m := by
  induction h with
  | clean k => exact hk.initial k
  | launch _ _ inputs p ih => exact hk.launch inputs p ih
  | step _ hs ih => exact hk.step ih hs
  | stop _ hs ih => exact hk.stop ih hs

theorem Trace.steps (h : Trace cfg ms m) (hm : Steps cfg m m') : ∃ ms', Trace cfg ms' m' := by
  induction hm with
  | refl => exact ⟨ms, h⟩
  | tail _ hs ih =>
    obtain ⟨ms', h'⟩ := ih
    exact ⟨_, h'.step hs⟩

/-- All accounts balance at every moment of a trace.  The induction is on the trace. -/
theorem Trace.balances (h : Trace cfg ms m) :
    ∀ a below, a :: below <:+ m.activations → Balances cfg ms m a below.length := by
  induction h with
  | clean k => exact forall_suffix_cons rfl (by simp [Machine.initial])
  | @launch ms m h hc inputs p ih =>
    have hlaunched : (m.launch inputs p).activations = [(m.launch inputs p).current] :=
      congrArg _ hc
    rw [hlaunched]
    have hstack : m.activations = [m.current] := by rw [activations, hc]
    have hold := ih m.current [] (hstack ▸ List.suffix_refl _)
    exact forall_suffix_cons hold (by simp)
  | step h hs ih => exact balances_step (h.kept copied_kept) (h.kept Store.defined_law.kept) hs ih
  | @stop ms m m' h hs ih =>
    obtain ⟨hcur, hcallers, hstore⟩ := hs.spec
    have hkeep : m'.pending m.bottom = m.pending m.bottom := by
      unfold pending snapshot
      rw [hstore]
    obtain ⟨ended, hacts⟩ := activations_eq_bottom m
    have hold := ih m.bottom [] ⟨ended, hacts.symm⟩
    rw [activations, hcallers, hcur]
    refine forall_suffix_cons ?_ (by simp)
    -- the last step is one of the top level if nobody waits
    rcases Nat.eq_zero_or_pos m.callers.length with hzero | hpos
    · rw [List.length_nil, ← hzero] at hold ⊢
      refine hold.tail ?_
      rw [bound?_of_stops hs, handed?_of_stops hs, hkeep]
      simp
    · exact hold.wait hpos hkeep

end Accounts

/-! ## Calls that are rejected -/

/-- Why a call is rejected: the checks in the order in which they are made. -/
inductive Rejects (cfg : Config) (m : Machine) : Cause → Prop where
  | undefined {proc : String} {count : Option Nat} {result : Option String}
      (hcall : m.instr? = some (.call proc count result))
      (hp : Scope.resolve? proc m.current.scopes = none) :
      Rejects cfg m (.undefinedProcedure proc)
  | count {proc : String} {n : Nat} {result : Option String} {p : Procedure} {home : List Scope}
      (hcall : m.instr? = some (.call proc (some n) result))
      (hp : Scope.resolve? proc m.current.scopes = some (p, home)) (hn : (n : Int) ≠ p.arity) :
      Rejects cfg m (.wrongCount p.name p.arity n)
  | depth {proc : String} {count : Option Nat} {result : Option String} {p : Procedure}
      {home : List Scope} (hcall : m.instr? = some (.call proc count result))
      (hp : Scope.resolve? proc m.current.scopes = some (p, home))
      (hcount : ∀ n ∈ count, (n : Int) = p.arity) (hd : cfg.maxDepth ≤ m.current.frame.depth) :
      Rejects cfg m (.tooManyCalls cfg.maxDepth p.name)
  | params {proc : String} {count : Option Nat} {result : Option String} {p : Procedure}
      {home : List Scope} (hcall : m.instr? = some (.call proc count result))
      (hp : Scope.resolve? proc m.current.scopes = some (p, home))
      (hcount : ∀ n ∈ count, (n : Int) = p.arity) (hd : m.current.frame.depth < cfg.maxDepth)
      (hfew : ¬ (0 ≤ p.arity ∧ p.arity ≤ m.current.params.values.length)) :
      Rejects cfg m (.tooFewParams p.name p.arity m.current.params.size)

theorem filter_count {count : Option Nat} {arity : Int} (h : ∀ n ∈ count, (n : Int) = arity) :
    (count.filter fun n => (n : Int) ≠ arity) = none := by
  cases count with
  | none => rfl
  | some n => simp [h n rfl]

/-- The checks of a call that is rejected end with the cause. -/
theorem Rejects.call {c : Cause} (h : m.Rejects cfg c) :
    ∃ proc count result, m.instr? = some (.call proc count result) ∧
      m.current.call cfg.maxDepth m.store proc count result = m.current.fault m.store c := by
  cases h with
  | undefined hcall hp =>
    refine ⟨_, _, _, hcall, ?_⟩
    simp only [Activation.call_eq, hp]
  | @count _ n _ p _ hcall hp hn =>
    have hwrong : (some n).filter (fun n => (n : Int) ≠ p.arity) = some n := by simp [hn]
    refine ⟨_, _, _, hcall, ?_⟩
    simp only [Activation.call_eq, hp, hwrong]
    rfl
  | depth hcall hp hcount hd =>
    refine ⟨_, _, _, hcall, ?_⟩
    simp only [Activation.call_eq, hp, filter_count hcount, if_pos hd]
  | params hcall hp hcount hd hfew =>
    refine ⟨_, _, _, hcall, ?_⟩
    simp only [Activation.call_eq, hp, filter_count hcount, if_neg (Nat.not_le_of_lt hd),
      Params.take?, if_neg hfew]

/-- A call that is rejected is a fault of the line. -/
theorem Rejects.effect {c : Cause} (h : m.Rejects cfg c) :
    ∃ l, m.At l ∧ m.effect cfg l = .signal m.current m.store (.fault c) := by
  obtain ⟨proc, count, result, hcall, hfault⟩ := h.call
  obtain ⟨l, hl, -, heff⟩ := at_of_instr? hcall
  exact ⟨l, hl, (heff cfg).trans hfault⟩

/-- A call that is rejected takes nothing. -/
theorem Rejects.keeps {c : Cause} (h : m.Rejects cfg c) :
    m.step cfg = raise cfg m c ∧ m.bound? cfg = none ∧
      ∀ m', m.step cfg = .next m' →
        m'.current.params = m.current.params ∧ m'.callers = m.callers := by
  obtain ⟨l, hl, he⟩ := h.effect
  have hstep : m.step cfg = raise cfg m c := by
    rw [step_of_fault hl he, raise_eq]
  have hkeep : ∀ m', m.step cfg = .next m' →
      m'.current.params = m.current.params ∧ m'.callers = m.callers := by
    intro m' hs
    rw [hstep, raise_eq] at hs
    split at hs <;> cases hs
    exact ⟨rfl, rfl⟩
  refine ⟨hstep, ?_, hkeep⟩
  cases hs : m.step cfg with
  | next m' =>
    refine bound?_eq_none hs ?_
    rw [(hkeep m' hs).2]
  | done m' r => exact bound?_of_stops (Or.inl ⟨r, hs⟩)
  | escaped m' message => exact bound?_of_stops (Or.inr ⟨message, hs⟩)
  | aborted m' => simp [bound?, hs]

/-- A call that is carried out is entered or rejected. -/
theorem enters_or_rejects (cfg : Config) {proc : String} {count : Option Nat}
    {result : Option String} (hcall : m.instr? = some (.call proc count result)) :
    (∃ m', m.step cfg = .next m' ∧ m.callers.length < m'.callers.length) ∨
      ∃ c, m.Rejects cfg c := by
  cases hp : Scope.resolve? proc m.current.scopes with
  | none => exact Or.inr ⟨_, .undefined hcall hp⟩
  | some found =>
    obtain ⟨p, home⟩ := found
    by_cases hcount : ∀ n ∈ count, (n : Int) = p.arity
    · by_cases hd : cfg.maxDepth ≤ m.current.frame.depth
      · exact Or.inr ⟨_, .depth hcall hp hcount hd⟩
      · by_cases hfew : 0 ≤ p.arity ∧ p.arity ≤ m.current.params.values.length
        · left
          obtain ⟨l, hl, -, heff⟩ := at_of_instr? hcall
          rw [step_at cfg hl, heff]
          simp only [Activation.execute, Activation.call_eq, hp, filter_count hcount, if_neg hd,
            Params.take?, if_pos hfew]
          exact ⟨_, rfl, Nat.lt_succ_self m.callers.length⟩
        · exact Or.inr ⟨_, .params hcall hp hcount (Nat.lt_of_not_le hd) hfew⟩
    · simp only [not_forall] at hcount
      obtain ⟨n, rfl, hn⟩ := hcount
      exact Or.inr ⟨_, .count hcall hp hn⟩

end Machine

namespace Engine

open Machine

variable {e : Engine} {m m₀ : Machine}

/-- A run goes on with the trace of the session, or begins a new one. -/
theorem Starts.trace (h : e.Starts m₀) (hsession : ∃ ms, Trace e.config ms e.machine)
    (hcallers : e.machine.callers = []) : ∃ ms, Trace e.config ms m₀ := by
  have hreset : ∀ inputs p, Trace e.config [] (e.reset.machine.launch inputs p) :=
    fun inputs p => .launch (.clean e.machine.delivered) rfl inputs p
  cases h with
  | exec inputs => exact ⟨[], hreset inputs e.program⟩
  | runLine line inputs clear =>
    cases clear with
    | true => exact ⟨[], hreset inputs _⟩
    | false =>
      obtain ⟨ms, hms⟩ := hsession
      exact ⟨ms, .launch hms hcallers inputs _⟩

theorem Session.trace (he : e.Session) : ∃ ms, Trace e.config ms e.machine := by
  -- an operation goes from one of the starting states to its end
  have hrun : ∀ {e e₁ e' : Engine} {p : Program} {n : Nat} {o : Outcome},
      (∃ ms, Trace e.config ms (e₁.start p)) → e₁.config = e.config →
      e₁.execute p n = (e', o) → o.ended = true → ∃ ms, Trace e'.config ms e'.machine := by
    rintro e e₁ e' p n o ⟨ms, hms⟩ hconfig hexec ho
    obtain ⟨m, hsteps, hstop⟩ := stops_of_execute hexec ho
    rw [hconfig] at hsteps hstop
    obtain ⟨ms', hms'⟩ := hms.steps hsteps
    rw [(machine_execute hexec).2, hconfig]
    exact ⟨_, hms'.stop hstop⟩
  induction he with
  | new config => exact ⟨[], .clean 0⟩
  | load _ p ih => exact ih
  | add _ line ih => exact ih
  | exec he hexec ho ih => exact hrun ((Starts.exec _).trace ih he.callers) rfl hexec ho
  | @runLine e e' he line inputs clear n o hexec ho ih =>
    refine hrun ((Starts.runLine line inputs clear).trace ih he.callers) ?_ hexec ho
    cases clear <;> rfl

/-- Every moment of a session has a trace. -/
theorem Reached.trace (he : e.Session) (hm : e.Reached m) : ∃ ms, Trace e.config ms m := by
  obtain ⟨m₀, hstart, hsteps⟩ := hm
  obtain ⟨ms, hms⟩ := hstart.trace he.trace he.callers
  exact hms.steps hsteps

end Engine

namespace Machine

variable {cfg : Config} {m m' : Machine} {ms : List Machine}

/-- Arguments are neither lost nor duplicated nor reordered.  Every state of a session and every
moment of its runs has a trace, which goes back to the last reset.  Along a trace the account of
each activation on the stack balances, that of the top level over all of the trace: what its calls
have bound in their callees, and behind it what is pending, is what it has handed over, in this
order and with the contents that were copied.  A call that is entered takes its arguments from the
front, as many as the procedure has, and the callee has them in the variables p0, p1 and so on, and
defines no other variable.  A call that is not entered is rejected for one of four reasons, and
takes nothing. -/
theorem arguments_accounted {e : Engine} (he : e.Session) :
    (∃ ms, Trace e.config ms e.machine) ∧ (∀ m, e.Reached m → ∃ ms, Trace e.config ms m) ∧
      ∀ ms m, Trace e.config ms m →
        (∀ a below, a :: below <:+ m.activations → Balances e.config ms m a below.length) ∧
        (∀ m', m.step e.config = .next m' → m.callers.length < m'.callers.length →
          ∃ p home result, m.Enters p home result m' ∧ m.TakesArgs m' p ∧
            m.bound? e.config = some ((m.args p).map m.snapshot)) ∧
        (∀ proc count result, m.instr? = some (.call proc count result) →
          (∃ m', m.step e.config = .next m' ∧ m.callers.length < m'.callers.length) ∨
            ∃ c, m.Rejects e.config c) ∧
        ∀ c, m.Rejects e.config c → m.step e.config = raise e.config m c ∧
          m.bound? e.config = none ∧ ∀ m', m.step e.config = .next m' →
            m'.current.params = m.current.params ∧ m'.callers = m.callers := by
  refine ⟨he.trace, fun m hm => hm.trace he, fun ms m h => ⟨h.balances, ?_, ?_, ?_⟩⟩
  · intro m' hs hlen
    have hdef : m.Defined := h.kept Store.defined_law.kept
    obtain ⟨p, home, result, henter⟩ := enters_of_step hs hlen
    exact ⟨p, home, result, henter, henter.takesArgs hdef.current.params,
      henter.bound? hs hdef.current.params⟩
  · exact fun proc count result hcall => enters_or_rejects e.config hcall
  · exact fun c hc => hc.keeps

/-- The states from which the first `n` steps are taken. -/
def trace (cfg : Config) : Nat → Machine → List Machine
  | 0, _ => []
  | n + 1, m =>
    m :: match m.step cfg with
      | .next m' => trace cfg n m'
      | _ => []

theorem Trace.run {n : Nat} (h : Trace cfg ms m) (hrun : m.run cfg n = (m', .running)) :
    Trace cfg (ms ++ trace cfg n m) m' := by
  induction n generalizing ms m with
  | zero =>
    cases hrun
    simpa [trace] using h
  | succ n ih =>
    cases hs : m.step cfg with
    | next m₁ =>
      simp only [Machine.run, trace, hs] at hrun ⊢
      have htail := ih (h.step hs) hrun
      rwa [List.append_assoc] at htail
    | _ => simp [Machine.run, hs] at hrun

/-- A procedure of eleven parameters that hands over two of them.  Before it is called twelve values
are handed over, the last of which is an array that is overwritten later, and two calls are
rejected. -/
def handing : Program := .ofStrings <|
  ["BeginFunc f, 11", "param p10", "param p2", "EndFunc", "a[0] = 1"] ++
    (List.range 11).map (fun i => "param " ++ toString i) ++
    ["param a", "a[0] = 2", "call g, 1", "call f, 3", "call f, 11"]

/-- The state in which `handing` is started. -/
def handingStart : Machine := Machine.initial.launch [] handing

/-- The texts of the contents of some values. -/
def texts (values : List (Value × Content)) : List (Option String) := values.map (·.2.text?)

/-- After two steps of the callee.  The call has taken eleven of twelve values, and the array waits
as it was.  The callee has handed over the last of its arguments, and the third. -/
theorem arguments_accounted_handing :
    ∃ ms m caller, handingStart.run {} 23 = (m, .running) ∧ Trace {} ms m ∧
      m.callers = [caller] ∧ Balances {} ms m caller 0 ∧ Balances {} ms m m.current 1 ∧
      ((own 0 ms).filterMap (bound? {})).map texts =
        [(List.range 11).map fun i => some (toString i)] ∧
      texts (m.pending caller) = [some "[0:1]"] ∧
      texts (m.pending m.current) = [some "10", some "2"] := by
  have hfacts : (handingStart.run {} 23).2 = .running ∧
      (handingStart.run {} 23).1.callers.length = 1 ∧
      ((own 0 (trace {} 23 handingStart)).filterMap (bound? {})).map texts =
        [(List.range 11).map fun i => some (toString i)] ∧
      (∀ a ∈ (handingStart.run {} 23).1.callers,
        texts ((handingStart.run {} 23).1.pending a) = [some "[0:1]"]) ∧
      texts ((handingStart.run {} 23).1.pending (handingStart.run {} 23).1.current) =
        [some "10", some "2"] := by
    decide +kernel
  cases hrun : handingStart.run {} 23 with
  | mk m o =>
    rw [hrun] at hfacts
    obtain ⟨rfl, hcallers, hbound, hwaiting, hcurrent⟩ := hfacts
    obtain ⟨caller, hcaller : m.callers = [caller]⟩ := List.length_eq_one_iff.mp hcallers
    have hmem : caller ∈ m.callers := by rw [hcaller]; exact List.mem_cons_self
    have hsession : ((Engine.new {}).load handing).Session := .load (.new {}) handing
    have hstart : Trace {} [] handingStart := .launch (.clean 0) rfl [] handing
    obtain ⟨-, -, hall⟩ := arguments_accounted hsession
    obtain ⟨hbalances, -⟩ := hall _ _ (hstart.run hrun)
    have hstack : m.activations = [m.current, caller] := by rw [activations, hcaller]
    rw [hstack] at hbalances
    exact ⟨_, m, caller, rfl, hstart.run hrun, hcaller,
      hbalances caller [] (List.suffix_cons _ _), hbalances m.current [caller] (List.suffix_refl _),
      hbound, hwaiting caller hmem, hcurrent⟩

end Machine

end AddressCode
