import AddressCode.Proofs.Frames
import AddressCode.Proofs.Recording
import Mathlib.Algebra.Group.Nat.Defs

/-!
# AddressCode.Proofs.Termination — programs without backward jumps end

A program is forward if its jumps lead ahead, and those of the procedures inside of it as well
(`Program.Forward`).  The run of a forward program ends, whatever it calls and whatever goes wrong
(`forward_run_ends`).

* What an activation runs, and all that it can call, are bodies of procedures of the program, so
  they are forward and no longer than the program (`Machine.Ahead`).  Procedures come from recorded
  text, may be defined again and may call each other without an end; that a recording has taken a
  body of the text is what `Recording` says of it.
* `Machine.stepsLeft` counts the lines that are left to each activation, and for each of them all
  the steps that a call from there can take.  Calls have a limited depth, so this is a number, and
  every step lowers it (`Ahead.stepsLeft_step`).
-/

namespace AddressCode

/-! ## Forward programs -/

/-- The label that a line jumps to, if it is a jump or has one as its action. -/
def Line.jump? (l : Line) : Option String :=
  match l.core? with
  | some (.goto label) => some label
  | _ => none

namespace Program

/-- Outside of all procedures a program jumps to later lines, or to labels it does not have. -/
def JumpsAhead (p : Program) : Prop :=
  ∀ pc < p.size, p.staticDepth pc = 0 → ∀ l ∈ p[pc]?, ∀ label ∈ l.jump?,
    ∀ position ∈ p.labels.lookup? (Text.Utf8.encode label), pc < position

instance (p : Program) : Decidable p.JumpsAhead := by
  unfold JumpsAhead
  infer_instance

/-- A program jumps ahead, and the bodies of its procedures are forward as well. -/
inductive Forward : Program → Prop where
  | intro {p : Program} (jumps : p.JumpsAhead)
      (bodies : ∀ first last, p.staticDepth first = 0 → p.Matching first last →
        Forward (p.extract (first + 1) last)) : Forward p

variable {p : Program} {first last : Nat}

theorem Forward.jumps (h : p.Forward) : p.JumpsAhead := by
  cases h with
  | intro jumps _ => exact jumps

theorem Forward.body (h : p.Forward) (hd : p.staticDepth first = 0) (hm : p.Matching first last) :
    Forward (p.extract (first + 1) last) := by
  cases h with
  | intro _ bodies => exact bodies first last hd hm

/-- Both ends of a procedure are lines of the program. -/
theorem Matching.last_lt (h : p.Matching first last) : last < p.size := by
  obtain ⟨l, hl, -⟩ := h.closes
  exact (Array.getElem?_eq_some_iff.mp hl).1

/-- The body of a procedure is shorter than the program. -/
theorem Matching.size_body_lt (h : p.Matching first last) :
    (p.extract (first + 1) last).size < p.size := by
  have hlast := h.last_lt
  rw [Array.size_extract]
  omega

/-! ## Deciding whether a program is forward -/

instance (p : Program) (first last : Nat) : Decidable (p.Matching first last) :=
  decidable_of_iff
    (first < last ∧ p[first]?.any Line.opens = true ∧ p[last]?.any Line.closes = true ∧
      (∀ i < last + 1, first < i → p.staticDepth first < p.staticDepth i) ∧
      p.staticDepth (last + 1) = p.staticDepth first)
    ⟨fun ⟨hlt, ho, hc, hin, hback⟩ =>
      ⟨hlt, (Option.any_eq_true _ _).mp ho, (Option.any_eq_true _ _).mp hc,
        fun i hi hle => hin i (Nat.lt_succ_of_le hle) hi, hback⟩,
    fun h => ⟨h.lt, (Option.any_eq_true _ _).mpr h.opens, (Option.any_eq_true _ _).mpr h.closes,
      fun i hle hi => h.inside i hi (Nat.le_of_lt_succ hle), h.back⟩⟩

/-- Is a program of at most `n` lines forward? -/
def isForward : Nat → Program → Bool
  | 0, _ => true
  | n + 1, p => decide (p.JumpsAhead ∧ ∀ first < p.size, ∀ last < p.size,
      p.staticDepth first = 0 → p.Matching first last →
        isForward n (p.extract (first + 1) last) = true)

theorem isForward_iff {n : Nat} (hn : p.size ≤ n) : isForward n p = true ↔ p.Forward := by
  induction n generalizing p with
  | zero =>
    -- a program without lines neither jumps nor has procedures
    refine ⟨fun _ => ⟨?_, ?_⟩, fun _ => rfl⟩
    · intro pc hpc
      omega
    · intro first last _ hm
      have hlast := hm.last_lt
      omega
  | succ n ih =>
    have hbody : ∀ {first last}, p.Matching first last →
        (isForward n (p.extract (first + 1) last) = true ↔
          Forward (p.extract (first + 1) last)) := by
      intro first last hm
      have hlt := hm.size_body_lt
      exact ih (by omega)
    rw [isForward, decide_eq_true_iff]
    constructor
    · rintro ⟨hjumps, hbodies⟩
      refine ⟨hjumps, ?_⟩
      intro first last hd hm
      have hlast := hm.last_lt
      have hfirst := hm.lt
      exact (hbody hm).mp (hbodies first (by omega) last hlast hd hm)
    · intro h
      refine ⟨h.jumps, ?_⟩
      intro first _ last _ hd hm
      exact (hbody hm).mpr (h.body hd hm)

instance (p : Program) : Decidable p.Forward :=
  decidable_of_iff (isForward p.size p = true) (isForward_iff (Nat.le_refl _))

/-- A forward program of at most `n` lines. -/
structure ForwardBy (n : Nat) (p : Program) : Prop where
  forward : p.Forward
  size_le : p.size ≤ n

theorem ForwardBy.body {n : Nat} (h : p.ForwardBy n) (hd : p.staticDepth first = 0)
    (hm : p.Matching first last) : ForwardBy n (p.extract (first + 1) last) :=
  ⟨h.forward.body hd hm, Nat.le_trans (Nat.le_of_lt hm.size_body_lt) h.size_le⟩

end Program

/-! ## What can be called -/

/-- All procedures of a scope are forward and have at most `n` lines. -/
def Scope.ForwardBy (n : Nat) (s : Scope) : Prop :=
  ∀ name p, s.find? name = some p → Program.ForwardBy n p.body

namespace Activation

variable {n limit : Nat} {a a' : Activation} {s s' : Store} {l : Line}

/-- What an activation runs and what it can call is forward and has at most `n` lines.  A procedure
that is being recorded cannot be called yet. -/
structure Ahead (n : Nat) (a : Activation) : Prop where
  program : a.program.ForwardBy n
  home : ∀ s ∈ a.home, s.ForwardBy n
  closed : ∀ name p, a.scope.find? name = some p → (∀ r, a.recording = some r → r.proc ≠ name) →
    Program.ForwardBy n p.body

theorem Ahead.congr (h : a.Ahead n) (hprog : a'.program = a.program) (hhome : a'.home = a.home)
    (hscope : a'.scope = a.scope) (hrec : a'.recording = a.recording) : a'.Ahead n := by
  constructor
  · rw [hprog]
    exact h.program
  · rw [hhome]
    exact h.home
  · rw [hscope, hrec]
    exact h.closed

theorem Ahead.scopes (h : a.Ahead n) (hquiet : a.recording = none) :
    ∀ s ∈ a.scopes, s.ForwardBy n := by
  intro s hs
  rcases List.mem_cons.mp hs with rfl | hs
  · intro name p hp
    refine h.closed name p hp ?_
    intro r hr
    rw [hquiet] at hr
    cases hr
  · exact h.home s hs

/-- A new procedure is not known before its recording has ended. -/
theorem Ahead.define (h : a.Ahead n) (hquiet : a.recording = none) (name : String) (arity : Int) :
    Ahead n { a with
      scope := a.scope.define ⟨name, arity, #[]⟩, recording := some ⟨name, 1⟩ } := by
  refine ⟨h.program, h.home, ?_⟩
  intro name' p hp hne
  have hname : name' ≠ name := fun heq => hne _ rfl heq.symm
  rw [Scope.find?_define, if_neg hname] at hp
  exact h.scopes hquiet a.scope (by simp [Activation.scopes]) name' p hp

/-- The recording that ends has taken a body of the text, which is forward. -/
theorem Ahead.record {r : Recording} (h : a.Ahead n) (hal : a.Aligned)
    (hl : a.program[a.pc]? = some l) (hr : a.recording = some r) : (a.record r l).Ahead n := by
  obtain ⟨first, arity, hrecs⟩ := hal.recorded r hr
  -- the procedures that are not recorded
  have hothers : ∀ name p, a.scope.find? name = some p → r.proc ≠ name →
      Program.ForwardBy n p.body := by
    intro name p hp hne
    refine h.closed name p hp ?_
    intro r' hr'
    rw [hr] at hr'
    cases hr'
    exact hne
  rcases a.record_cases r l with ⟨hc, hd, heq⟩ | ⟨_, heq⟩
  · rw [heq]
    refine ⟨h.program, h.home, ?_⟩
    intro name p hp _
    by_cases hname : r.proc = name
    · have hbody := hrecs.body
      rw [hname, hp] at hbody
      cases hbody
      exact h.program.body hrecs.outside (hrecs.matching hl hc hd)
    · exact hothers name p hp hname
  · rw [heq]
    refine ⟨h.program, h.home, ?_⟩
    intro name p hp hne
    have hname : r.proc ≠ name := hne { r with depth := Program.depthAfter r.depth l } rfl
    rw [Scope.find?_append, if_neg hname.symm] at hp
    exact hothers name p hp hname

theorem Does.ahead {sig : Signal} (hd : a.Does limit s l (.signal a' s' sig)) (h : a.Ahead n)
    (hquiet : a.recording = none) : a'.Ahead n := by
  cases hd with
  | @define name arity _ => exact h.define hquiet name arity
  | _ => exact h.congr rfl rfl rfl rfl

/-- A procedure that is found runs a body its caller knows, at a home its caller knows. -/
theorem Ahead.ofCall {name : String} {p : Procedure} {home : List Scope} (h : a.Ahead n)
    (hquiet : a.recording = none) (hp : Scope.resolve? name a.scopes = some (p, home))
    (depth : Nat) (args : List Value) (result : String) :
    (Activation.ofCall depth p home args result).Ahead n := by
  have hscopes := h.scopes hquiet
  constructor
  · obtain ⟨s, hs, hfind⟩ := Scope.find?_of_resolve? hp
    exact hscopes s hs name p hfind
  · intro s hs
    exact hscopes s ((Scope.resolve?_suffix hp).subset hs)
  · intro name' q hq
    cases hq

/-- A jump leads ahead. -/
theorem Ahead.lt_of_jump {position : Nat} (h : a.Ahead n) (hal : a.Aligned)
    (hl : a.program[a.pc]? = some l) (hquiet : a.recording = none)
    (hd : a.Does limit s l (.signal a' s' (.jump position))) : a.pc < position := by
  cases hd with
  | @jump label _ hcore hp =>
    have hjump : l.jump? = some label := by simp only [Line.jump?, hcore]
    rw [hal.labels] at hp
    obtain ⟨hlt, -⟩ := Array.getElem?_eq_some_iff.mp hl
    exact h.program.forward.jumps a.pc hlt (hal.quiet hquiet) l hl label hjump position hp

end Activation

/-! ## The steps that are left -/

/-- How many lines an activation can still come to, one more for its end. -/
def Activation.linesLeft (a : Activation) : Nat := a.program.size - a.pc + 1

/-- How many steps some activations can take, the running one in front.  Up to `limit` calls may be
inside each other, and each line of a body of at most `n` lines may make one. -/
def Activation.stepsLeft (n limit : Nat) : List Activation → Nat
  | [] => 0
  | a :: below => a.linesLeft * (n + 2) ^ (limit - below.length) + stepsLeft n limit below

namespace Machine

variable {n : Nat} {cfg : Config} {m m' : Machine} {root : Activation}

/-- How many steps a run can take.  Who waits goes on behind its call. -/
def stepsLeft (n limit : Nat) (m : Machine) : Nat :=
  Activation.stepsLeft n limit (m.current :: m.callers.map Activation.advance)

/-- A later line of the same activation. -/
theorem stepsLeft_stay {limit : Nat} (hc : m'.callers = m.callers)
    (hprog : m'.current.program = m.current.program)
    (hline : m.current.pc < m.current.program.size) (hpc : m.current.pc < m'.current.pc) :
    m'.stepsLeft n limit < m.stepsLeft n limit := by
  have hlines : m'.current.linesLeft < m.current.linesLeft := by
    unfold Activation.linesLeft
    rw [hprog]
    omega
  simp only [stepsLeft, Activation.stepsLeft, hc]
  exact Nat.add_lt_add_right (Nat.mul_lt_mul_of_pos_right hlines (Nat.pow_pos (by omega))) _

/-- The end of an activation, whose caller goes on. -/
theorem stepsLeft_pop {limit : Nat} {c : Activation} (hc : m.callers = c :: m'.callers)
    (hprog : m'.current.program = c.program) (hpc : m'.current.pc = c.pc + 1) :
    m'.stepsLeft n limit < m.stepsLeft n limit := by
  have hlines : m'.current.linesLeft = c.advance.linesLeft := by
    simp only [Activation.linesLeft, Activation.advance, hprog, hpc]
  have hpos : 0 < m.current.linesLeft * (n + 2) ^ (limit - (c :: m'.callers).length) :=
    Nat.mul_pos (Nat.succ_pos _) (Nat.pow_pos (by omega))
  simp only [stepsLeft, Activation.stepsLeft, hc, List.map_cons, List.length_cons,
    List.length_map, hlines] at hpos ⊢
  omega

/-- A call takes the place of one line of the caller, and is worth less than that. -/
theorem stepsLeft_push {limit : Nat} {p : Procedure} {home : List Scope} {result : String}
    (henter : m.Enters p home result m') (hline : m.current.pc < m.current.program.size)
    (hroom : m.callers.length < limit) (hbody : p.body.size ≤ n) :
    m'.stepsLeft n limit < m.stepsLeft n limit := by
  obtain ⟨d, hd⟩ : ∃ d, limit - m.callers.length = d + 1 :=
    ⟨limit - m.callers.length - 1, by omega⟩
  have hd' : limit - (m.callers.length + 1) = d := by omega
  have hcallee : m'.current.linesLeft ≤ n + 1 := by
    rw [henter.state]
    simp only [Activation.linesLeft, Activation.ofCall]
    omega
  have hcaller : (m.current.waiting p).advance.linesLeft + 1 = m.current.linesLeft := by
    simp only [Activation.linesLeft, Activation.advance, Activation.waiting]
    omega
  simp only [stepsLeft, Activation.stepsLeft, henter.callers, List.map_cons, List.length_cons,
    List.length_map, hd, hd', ← hcaller]
  -- the line of the call alone was worth all of the callee
  have hcall : m'.current.linesLeft * (n + 2) ^ d < (n + 2) ^ (d + 1) := by
    calc m'.current.linesLeft * (n + 2) ^ d
        ≤ (n + 1) * (n + 2) ^ d := Nat.mul_le_mul_right _ hcallee
      _ < (n + 2) * (n + 2) ^ d :=
          Nat.mul_lt_mul_of_pos_right (by omega) (Nat.pow_pos (by omega))
      _ = (n + 2) ^ (d + 1) := by rw [Nat.pow_succ, Nat.mul_comm]
  rw [Nat.add_mul, Nat.one_mul]
  omega

/-! ## Every step lowers the count -/

/-- What runs, what waits and what can be called is forward and has at most `n` lines; lines are
taken as the text says, and calls are as deep as there are activations. -/
structure Ahead (n : Nat) (cfg : Config) (root : Activation) (m : Machine) : Prop where
  current : m.current.Ahead n
  waiting : ∀ c ∈ m.callers, c.Ahead n
  orderly : m.Orderly
  aligned : m.Aligned
  layered : m.Layered cfg root

/-- What runs after a step is forward and knows forward procedures. -/
theorem Ahead.current_step (h : m.Ahead n cfg root) (hs : m.step cfg = .next m') :
    m'.current.Ahead n := by
  have hcaller : ∀ {c : Activation} {rest : List Activation}, m.callers = c :: rest →
      c.Ahead n := by
    intro c rest hc
    exact h.waiting c (by simp [hc])
  have hresume : ∀ (c : Activation) (result : String) (v : Option Value), c.Ahead n →
      (resume c result v).Ahead n := by
    intro c result v hc
    have hcont := Activation.continues_resume c result v
    exact hc.congr hcont.program hcont.home (Activation.resume_scope c result v)
      (Activation.resume_recording c result v)
  cases takes_of_step hs with
  | @fallOff c _ _ hc => exact hresume c m.current.result none (hcaller hc)
  | record hl hr => exact (h.current.record h.aligned.current hl hr).congr rfl rfl rfl rfl
  | quiet hl he =>
    have ha := (does_of_effect he).ahead h.current hl.quiet
    exact ha.congr rfl rfl rfl rfl
  | enter hl he =>
    obtain ⟨p, home, result, ⟨_, _, hp⟩, _, hstate⟩ := enters_of_effect hl he
    rw [hstate]
    exact h.current.ofCall hl.quiet hp _ _ _
  | @ret _ v c _ _ _ hc => exact hresume c m.current.result (some v) (hcaller hc)
  | jump | fault | print => exact h.current.congr rfl rfl rfl rfl
  | sinkFault _ _ _ hc => exact (hcaller hc).congr rfl rfl rfl rfl

theorem Ahead.step (h : m.Ahead n cfg root) (hs : m.step cfg = .next m') :
    m'.Ahead n cfg root := by
  constructor
  case current => exact h.current_step hs
  case waiting =>
    refine waiting_of_step hs h.waiting ?_
    intro p home result _
    exact h.current.congr rfl rfl rfl rfl
  case orderly => exact h.orderly.step hs
  case aligned => exact h.aligned.step h.orderly hs
  case layered => exact h.layered.happens (happens_of_step hs)

/-- Every step leaves fewer steps to take. -/
theorem Ahead.stepsLeft_step (h : m.Ahead n cfg root) (hs : m.step cfg = .next m') :
    m'.stepsLeft n cfg.maxDepth < m.stepsLeft n cfg.maxDepth := by
  have hline : ∀ {l : Line}, m.current.program[m.current.pc]? = some l →
      m.current.pc < m.current.program.size := by
    intro l hl
    exact (Array.getElem?_eq_some_iff.mp hl).1
  cases takes_of_step hs with
  | @fallOff c _ _ hc =>
    have hcont := Activation.continues_resume c m.current.result none
    exact stepsLeft_pop hc hcont.program (Activation.resume_pc c m.current.result none)
  | @ret _ v c _ _ _ hc =>
    have hcont := Activation.continues_resume c m.current.result (some v)
    exact stepsLeft_pop hc hcont.program (Activation.resume_pc c m.current.result (some v))
  | sinkFault _ _ _ hc => exact stepsLeft_pop hc rfl rfl
  | @record l r hl hr =>
    refine stepsLeft_stay rfl (m.current.continues_record r).program (hline hl) ?_
    show m.current.pc < (m.current.record r l).pc + 1
    rw [Activation.record_pc]
    exact Nat.lt_succ_self _
  | @quiet _ a _ hl he =>
    have hd := does_of_effect he
    refine stepsLeft_stay rfl (Activation.Does.continues hd).program (hline hl.line) ?_
    show m.current.pc < a.pc + 1
    rw [Activation.Does.pc hd]
    exact Nat.lt_succ_self _
  | fault hl | print hl => exact stepsLeft_stay rfl rfl (hline hl.line) (Nat.lt_succ_self _)
  | jump hl he =>
    have hlt := h.current.lt_of_jump h.aligned.current hl.line hl.quiet (does_of_effect he)
    exact stepsLeft_stay rfl rfl (hline hl.line) hlt
  | enter hl he =>
    obtain ⟨p, home, result, henter⟩ := enters_of_effect hl he
    have hdepth := h.layered.depth m.current m.callers (List.suffix_refl _)
    have hroom := room_of_step hs (by simp)
    rw [hdepth] at hroom
    have hbody : Program.ForwardBy n p.body := by
      have hcallee := (h.current_step hs).program
      rw [henter.state] at hcallee
      exact hcallee
    exact stepsLeft_push henter (hline hl.line) hroom hbody.size_le

/-- A run ends if a number gets lower with every step. -/
theorem not_running_of_lt {P : Machine → Prop} {f : Machine → Nat}
    (hstep : ∀ m m', P m → m.step cfg = .next m' → P m' ∧ f m' < f m) {k : Nat} (hm : P m)
    (hk : f m < k) : (m.run cfg k).2 ≠ .running := by
  induction k generalizing m with
  | zero => omega
  | succ k ih =>
    rw [run]
    split
    · rename_i m' hs
      obtain ⟨hm', hlt⟩ := hstep m m' hm hs
      exact ih hm' (by omega)
    all_goals simp

end Machine

/-! ## The end of a run -/

/-- How many steps the run of a program can take, if it is forward: each line may call, and each
call takes at most the steps of a program with one call less inside. -/
def Program.stepLimit (p : Program) (depth : Nat) : Nat := (p.size + 1) * (p.size + 2) ^ depth

namespace Engine

open Machine

variable {p : Program}

/-- The run of a forward program starts with nothing to call but what it will record. -/
theorem ahead_start (e : Engine) (hp : p.Forward) (inputs : List Number) :
    ((e.reset.bind inputs).start p).Ahead p.size e.config
      ((e.reset.bind inputs).start p).current := by
  constructor
  case current =>
    refine ⟨⟨hp, Nat.le_refl _⟩, ?_, ?_⟩
    · intro s hs
      cases hs
    · intro name q hq
      cases hq
  case waiting =>
    intro c hc
    cases hc
  case orderly => exact orderly_kept.launch inputs p (orderly_kept.initial e.machine.delivered)
  case aligned =>
    refine ⟨Activation.aligned_start rfl rfl rfl, ?_, List.isChain_singleton _⟩
    intro c hc
    cases hc
  case layered => exact layered_of_atTop ⟨rfl, rfl, rfl⟩ rfl

/-- The run of a forward program ends within a number of steps that depends only on the number of
its lines and on how many calls may be inside each other, whatever its inputs are, whether or not
it halts at faults, and whenever the receiver of output fails. -/
theorem forward_run_ends (e : Engine) (hp : p.Forward) (inputs : List Number) {n : Nat}
    (hn : p.stepLimit e.config.maxDepth < n) :
    (e.run p inputs n).2 ≠ .running ∧
      e.run p inputs n = e.run p inputs (p.stepLimit e.config.maxDepth + 1) := by
  have hstart := ahead_start (e.load p) hp inputs
  generalize hm₀ : ((e.load p).reset.bind inputs).start p = m₀ at hstart
  have hcount : m₀.stepsLeft p.size e.config.maxDepth = p.stepLimit e.config.maxDepth := by
    rw [← hm₀]
    rfl
  have hend : ∀ k, p.stepLimit e.config.maxDepth < k → (m₀.run e.config k).2 ≠ .running := by
    intro k hk
    rw [← hcount] at hk
    exact not_running_of_lt (fun m m' hm hs => ⟨hm.step hs, hm.stepsLeft_step hs⟩) hstart hk
  have hrun : ∀ k, e.run p inputs k =
      ({ e.load p with machine := (m₀.run e.config k).1 }, (m₀.run e.config k).2) := by
    intro k
    rw [← hm₀]
    rfl
  refine ⟨?_, ?_⟩
  · rw [hrun]
    exact hend n hn
  · rw [hrun, hrun, run_of_le hn (hend _ (Nat.lt_succ_self _))]

/-- A program with two procedures that call each other and themselves without an end, and skip a
line by a jump; the first is defined twice. -/
def callingOnAndOn : Program := .ofStrings
  ["BeginFunc f, 0", "EndFunc", "BeginFunc g, 0", "if 1 goto on", "print x", "on: call f, 0",
    "call g, 0", "EndFunc", "BeginFunc f, 0", "call g, 0", "EndFunc", "call f, 0", "goto nowhere"]

/-- It ends, with a fault for each of the two calls that are too deep and one for its last jump. -/
theorem forward_run_ends_callingOnAndOn :
    callingOnAndOn.Forward ∧
      ((Engine.new { maxDepth := 2 }).run callingOnAndOn [] 60).1.machine.events.size = 3 ∧
      ((Engine.new { maxDepth := 2 }).run callingOnAndOn []
        (callingOnAndOn.stepLimit 2 + 1)).2 ≠ .running := by
  have hfacts : callingOnAndOn.Forward ∧
      ((Engine.new { maxDepth := 2 }).run callingOnAndOn [] 60).1.machine.events.size = 3 := by
    decide +kernel
  obtain ⟨hforward, hevents⟩ := hfacts
  have hend := forward_run_ends (.new { maxDepth := 2 }) hforward [] (Nat.lt_succ_self _)
  exact ⟨hforward, hevents, hend.1⟩

end Engine

end AddressCode
