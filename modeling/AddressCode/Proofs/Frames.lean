import AddressCode.Proofs.Calls

/-!
# AddressCode.Proofs.Frames — the call stack during a session

A call pushes a frame, the end of a call pops one, and all else happens in the frame on top.
`CallStack.follow` keeps a call stack in this way along a run, and `follow_of_happens` says that it
is never asked to pop a frame that is not there and always holds the frames of the activations.

A receiver, of records or of faults, may fail at any moment.  Its failure breaks off the running
activation and any number of those below it; then it is a fault of the activation that takes it, or
it leaves the run altogether.  `Machine.Happens` adds this to the steps of a run, and
`Engine.Used` are the engines that operations lead to if receivers may fail.  Whatever has happened,
each frame has as many frames below it as its depth says, no more calls are active than allowed, and
after an operation only the frame of the top level is left (`callStack_mirrors`).
-/

namespace AddressCode

/-! ## Keeping a call stack -/

namespace CallStack

/-- Pop a number of frames. -/
def popTimes : Nat → CallStack → Except EmptyStack CallStack
  | 0, cs => .ok cs
  | n + 1, cs =>
    match cs.pop with
    | .ok (_, older) => older.popTimes n
    | .error e => .error e

/-- Follow a run from `m` to `m'`: push a frame for a call that was entered, or pop one for each
activation that has ended, and write the variables to the frame on top. -/
def follow (cs : CallStack) (m m' : Machine) : Except EmptyStack CallStack :=
  if m.callers.length < m'.callers.length then
    .ok ((cs.push m'.current.name).modifyHeap fun _ => m'.current.heap)
  else
    match cs.popTimes (m.callers.length - m'.callers.length) with
    | .ok cs => .ok (cs.modifyHeap fun _ => m'.current.heap)
    | .error e => .error e

theorem popTimes_append (above below : List Frame) :
    popTimes above.length ⟨above ++ below⟩ = .ok ⟨below⟩ := by
  induction above with
  | nil => rfl
  | cons f above ih => exact ih

end CallStack

namespace Machine

variable {cfg : Config} {m m' m₀ : Machine}

/-- An activation that goes on has the same frame, but for the variables. -/
theorem frame_of_continues {a a' : Activation} (h : a.Continues a') :
    a'.frame = { a.frame with heap := a'.heap } := by
  obtain ⟨⟨name, depth, heap⟩, _⟩ := a
  obtain ⟨⟨name', depth', heap'⟩, _⟩ := a'
  obtain rfl : name' = name := h.name
  obtain rfl : depth' = depth := h.depth
  rfl

/-! ## What can happen -/

/-- What can happen at a moment of a run: its next step, or the failure of a receiver, which ends
the activations down to the one that takes it, or all of them. -/
inductive Happens (cfg : Config) (m : Machine) : Step → Prop where
  | step : Happens cfg m (m.step cfg)
  /-- the failure is a fault of a caller -/
  | caught {ended : List Activation} {c : Activation} {rest : List Activation} (message : String)
      (hc : m.callers = ended ++ c :: rest) :
      Happens cfg m (raise cfg (m.backTo c rest) (.internal message))
  /-- the failure leaves the run -/
  | escaped (message : String) : Happens cfg m (.escaped m.unwind message)

/-- Moments of a run in which receivers may fail. -/
def Moments (cfg : Config) : Machine → Machine → Prop :=
  Relation.ReflTransGen fun m m' => Happens cfg m (.next m')

/-- A run in which receivers may fail ends in `m'`. -/
def Ends (cfg : Config) (m m' : Machine) : Prop :=
  (∃ r, Happens cfg m (.done m' r)) ∨ ∃ message, Happens cfg m (.escaped m' message)

theorem happens_of_step {o : Step} (h : m.step cfg = o) : Happens cfg m o := by
  rw [← h]
  exact .step

theorem Steps.moments (h : Steps cfg m m') : Moments cfg m m' := by
  induction h with
  | refl => exact .refl
  | tail _ hs ih => exact .tail ih (happens_of_step hs)

theorem Stops.ends (h : Stops cfg m m') : Ends cfg m m' := by
  rcases h with ⟨r, hs⟩ | ⟨message, hs⟩
  · exact Or.inl ⟨r, happens_of_step hs⟩
  · exact Or.inr ⟨message, happens_of_step hs⟩

/-- A step after which the run is left by a failure. -/
theorem escaped_of_run {message : String} (h : (m.run cfg 1).2 = .escaped message) :
    ∃ m', m.step cfg = .escaped m' message := by
  simp only [run] at h
  split at h
  · cases h
  · cases h
  · rename_i m' _ hs
    cases h
    exact ⟨m', hs⟩
  · cases h

/-- How the stack of activations moves when a run goes on. -/
inductive Moves (cfg : Config) (m m' : Machine) : Prop where
  | stay (hc : m'.callers = m.callers) (ha : m.current.Continues m'.current)
  | push {p : Procedure} {home : List Scope} {result : String} (h : m.Enters p home result m')
      (hroom : m.current.frame.depth < cfg.maxDepth)
  | back {ended : List Activation} {c : Activation} (hc : m.callers = ended ++ c :: m'.callers)
      (ha : c.Continues m'.current)

/-- A call is entered only if there is room for it. -/
theorem room_of_step (hs : m.step cfg = .next m')
    (hlen : m.callers.length < m'.callers.length) : m.current.frame.depth < cfg.maxDepth := by
  cases takes_of_step hs with
  | enter _ he =>
    cases does_of_effect he with
    | call _ _ hroom _ => exact hroom
  | fallOff _ hc | ret _ _ hc =>
    simp only [hc, List.length_cons] at hlen
    omega
  | sinkFault _ _ _ hc =>
    simp only [advance, deliver, backTo, hc, List.length_cons] at hlen
    omega
  | _ => exact absurd hlen (Nat.lt_irrefl _)

theorem moves_of_happens (h : Happens cfg m (.next m')) : m.Moves cfg m' := by
  generalize ho : Step.next m' = o at h
  cases h with
  | step =>
    have hs : m.step cfg = .next m' := ho.symm
    cases shift_of_step hs with
    | stay hc ha => exact .stay hc ha
    | push henter =>
      have hlen : m.callers.length < m'.callers.length := by
        rw [henter.callers, List.length_cons]
        exact Nat.lt_succ_self _
      exact .push henter (room_of_step hs hlen)
    | @pop c hc ha =>
      have hcallers : m.callers = [] ++ c :: m'.callers := hc
      exact .back hcallers ha
  | @caught ended c rest message hc =>
    unfold raise at ho
    dsimp only at ho
    split at ho
    · cases ho
    · cases ho
      exact .back hc (Activation.Continues.refl c).advance
  | escaped message => cases ho

/-- A run that ends leaves the activation at the bottom of its stack, and only that. -/
theorem Ends.bottom (h : Ends cfg m m') : m'.callers = [] ∧ m'.current = m.bottom := by
  rcases h with ⟨r, h⟩ | ⟨message, h⟩
  · generalize ho : Step.done m' r = o at h
    cases h with
    | step =>
      obtain ⟨hcur, hcallers, -⟩ := Stops.spec (Or.inl ⟨r, ho.symm⟩)
      exact ⟨hcallers, hcur⟩
    | @caught ended c rest message hc =>
      unfold raise at ho
      dsimp only at ho
      split at ho
      · cases ho
        refine ⟨rfl, ?_⟩
        -- the caller that takes the failure stands on the same bottom
        have hsame : (m.backTo c rest).bottom = m.bottom := by
          simp [Machine.bottom, backTo, hc, List.getLast?_append, List.getLast?_cons]
        simpa [unwind] using hsame
      · cases ho
    | escaped message => cases ho
  · generalize ho : Step.escaped m' message = o at h
    cases h with
    | step =>
      obtain ⟨hcur, hcallers, -⟩ := Stops.spec (Or.inr ⟨message, ho.symm⟩)
      exact ⟨hcallers, hcur⟩
    | caught message hc =>
      unfold raise at ho
      dsimp only at ho
      split at ho <;> cases ho
    | escaped message =>
      cases ho
      exact ⟨rfl, rfl⟩

/-! ## The call stack follows the run -/

/-- Popping the frames of activations that have ended leaves those of the others. -/
theorem follow_back {ended : List Activation} {a : Activation}
    (hacts : m.activations = ended ++ a :: m'.callers) (ha : a.Continues m'.current) :
    m.callStack.follow m m' = .ok m'.callStack := by
  have hlen := congrArg List.length hacts
  simp only [activations, List.length_cons, List.length_append] at hlen
  have hup : ¬ m.callers.length < m'.callers.length := by omega
  have hdiff : m.callers.length - m'.callers.length = (ended.map (·.frame)).length := by
    rw [List.length_map]
    omega
  have hframes : m.callStack =
      ⟨ended.map (·.frame) ++ (a.frame :: m'.callers.map (·.frame))⟩ := by
    simp [callStack, hacts]
  unfold CallStack.follow
  rw [if_neg hup, hdiff, hframes, CallStack.popTimes_append]
  simp [CallStack.modifyHeap, callStack, activations, frame_of_continues ha]

/-- Whatever happens, the call stack that follows the run holds the frames of the activations. -/
theorem follow_of_happens (h : Happens cfg m (.next m')) :
    m.callStack.follow m m' = .ok m'.callStack := by
  cases moves_of_happens h with
  | stay hc ha =>
    have hacts : m.activations = [] ++ m.current :: m'.callers := by
      rw [hc]
      rfl
    exact follow_back hacts ha
  | push henter =>
    rw [henter.state]
    simp [CallStack.follow, CallStack.push, CallStack.modifyHeap, CallStack.depthAbove, callStack,
      activations, Activation.waiting, Activation.ofCall, Activation.name, Activation.heap]
  | @back ended c hc ha =>
    have hacts : m.activations = (m.current :: ended) ++ c :: m'.callers := by
      simp [activations, hc]
    exact follow_back hacts ha

/-- The activations of a run stand on the one at the bottom. -/
theorem activations_eq_bottom (m : Machine) :
    ∃ above, m.activations = above ++ [m.bottom] := by
  cases hc : m.callers.getLast? with
  | none =>
    have hnil : m.callers = [] := List.getLast?_eq_none_iff.mp hc
    exact ⟨[], by simp [activations, bottom, hnil]⟩
  | some b =>
    obtain ⟨above, habove⟩ := List.getLast?_eq_some_iff.mp hc
    exact ⟨m.current :: above, by simp [activations, bottom, habove]⟩

/-- The end of a run pops all frames but that of the top level. -/
theorem follow_of_ends (h : Ends cfg m m') :
    m.callStack.follow m m' = .ok m'.callStack ∧
      m'.callStack.frames = [m'.current.frame] := by
  obtain ⟨hcallers, hcur⟩ := h.bottom
  obtain ⟨above, hacts⟩ := m.activations_eq_bottom
  have hsame : m.bottom.Continues m'.current := by
    rw [hcur]
    exact .refl _
  rw [← hcallers] at hacts
  refine ⟨follow_back hacts hsame, ?_⟩
  simp [callStack, activations, hcallers]

/-! ## Depths -/

/-- Each activation is as deep as there are activations below it, there are no more calls than
allowed, and the activation at the bottom is a later state of `root`. -/
structure Layered (cfg : Config) (root : Activation) (m : Machine) : Prop where
  depth : ∀ a below, a :: below <:+ m.activations → a.frame.depth = below.length
  room : m.callers.length ≤ cfg.maxDepth
  bottom : root.Continues m.bottom

variable {root : Activation}

/-- The activations below some that have ended are layered as well. -/
theorem Layered.back {ended : List Activation} {a : Activation} (h : m.Layered cfg root)
    (hacts : m.activations = ended ++ a :: m'.callers) (ha : a.Continues m'.current) :
    m'.Layered cfg root := by
  have hsuffix : a :: m'.callers <:+ m.activations := ⟨ended, hacts.symm⟩
  constructor
  case depth =>
    intro b below hb
    rcases List.suffix_cons_iff.mp hb with heq | hb
    · obtain ⟨rfl, rfl⟩ := List.cons.inj heq
      rw [ha.depth]
      exact h.depth a m'.callers hsuffix
    · exact h.depth b below (hb.trans ((List.suffix_cons a _).trans hsuffix))
  case room =>
    have hlen := hsuffix.length_le
    have hroom := h.room
    simp only [activations, List.length_cons] at hlen
    omega
  case bottom =>
    -- the bottom has not ended, unless nothing is below `a`, which is then the bottom itself
    obtain ⟨above, habove⟩ := m.activations_eq_bottom
    have hlast : (a :: m'.callers).getLast? = some m.bottom := by
      have hall := congrArg List.getLast? (hacts.symm.trans habove)
      simpa [List.getLast?_append, List.getLast?_cons] using hall
    have hbottom := h.bottom
    rw [List.getLast?_cons] at hlast
    unfold Machine.bottom
    cases hc : m'.callers.getLast? with
    | none =>
      rw [hc] at hlast
      cases hlast
      exact hbottom.trans ha
    | some b =>
      rw [hc] at hlast
      cases hlast
      exact hbottom

theorem Layered.happens (h : m.Layered cfg root) (hn : Happens cfg m (.next m')) :
    m'.Layered cfg root := by
  cases moves_of_happens hn with
  | stay hc ha =>
    have hacts : m.activations = [] ++ m.current :: m'.callers := by
      rw [hc]
      rfl
    exact h.back hacts ha
  | @back ended c hc ha =>
    have hacts : m.activations = (m.current :: ended) ++ c :: m'.callers := by
      simp [activations, hc]
    exact h.back hacts ha
  | @push p home result henter hroom =>
    have hdepth := h.depth m.current m.callers (List.suffix_refl _)
    have hcallers := henter.callers
    have hcur : m'.current.frame.depth = m.current.frame.depth + 1 := by
      rw [henter.state]
      rfl
    constructor
    case depth =>
      intro a below ha
      unfold activations at ha
      rw [hcallers] at ha
      rcases List.suffix_cons_iff.mp ha with heq | ha
      · obtain ⟨rfl, rfl⟩ := List.cons.inj heq
        rw [hcur, hdepth, List.length_cons]
      · rcases List.suffix_cons_iff.mp ha with heq | ha
        · obtain ⟨rfl, rfl⟩ := List.cons.inj heq
          exact hdepth
        · exact h.depth a below (ha.trans (List.suffix_cons _ _))
    case room =>
      rw [hcallers, List.length_cons]
      omega
    case bottom =>
      have hbottom := h.bottom
      unfold Machine.bottom at hbottom ⊢
      rw [hcallers, List.getLast?_cons]
      cases hc : m.callers.getLast? with
      | none =>
        rw [hc] at hbottom
        exact hbottom.trans (m.current.continues_waiting p)
      | some b =>
        rw [hc] at hbottom
        exact hbottom

theorem Layered.moments (h : m₀.Layered cfg root) (hm : Moments cfg m₀ m) :
    m.Layered cfg root := by
  induction hm with
  | refl => exact h
  | tail _ hn ih => exact ih.happens hn

end Machine

/-! ## Sessions in which receivers fail -/

namespace Engine

open Machine

/-- The engines that operations lead to if receivers may fail at any moment. -/
inductive Used : Engine → Prop where
  | new (config : Config) : Used (.new config)
  | load {e : Engine} (he : Used e) (p : Program) : Used (e.load p)
  | add {e : Engine} (he : Used e) (line : List Text.Piece) : Used (e.add line)
  /-- a run has ended, with a result or by a failure -/
  | ran {e : Engine} {m₀ m m' : Machine} (he : Used e) (hstart : e.Starts m₀)
      (hm : Moments e.config m₀ m) (hend : Ends e.config m m') : Used { e with machine := m' }

/-- An activation of the top level. -/
structure AtTop (a : Activation) : Prop where
  name : a.name = rootName
  depth : a.frame.depth = 0
  home : a.home = []

variable {e : Engine} {m m₀ : Machine}

theorem AtTop.continues {a a' : Activation} (h : AtTop a) (ha : a.Continues a') : AtTop a' :=
  ⟨ha.name.trans h.name, ha.depth.trans h.depth, ha.home.trans h.home⟩

/-- The top level is what a run starts from, if it is all there is. -/
theorem Starts.atTop (hstart : e.Starts m₀) (htop : AtTop e.machine.current)
    (hcallers : e.machine.callers = []) : AtTop m₀.current ∧ m₀.callers = [] := by
  have hreset : AtTop e.reset.machine.current := ⟨rfl, rfl, rfl⟩
  cases hstart with
  | exec inputs => exact ⟨⟨hreset.name, hreset.depth, hreset.home⟩, rfl⟩
  | runLine line inputs clear =>
    cases clear with
    | true => exact ⟨⟨hreset.name, hreset.depth, hreset.home⟩, rfl⟩
    | false => exact ⟨⟨htop.name, htop.depth, htop.home⟩, hcallers⟩

/-- A run starts with the frame of the top level only. -/
theorem layered_of_atTop {cfg : Config} (htop : AtTop m₀.current) (hcallers : m₀.callers = []) :
    m₀.Layered cfg m₀.current := by
  constructor
  case depth =>
    intro a below ha
    unfold activations at ha
    rw [hcallers] at ha
    rcases List.suffix_cons_iff.mp ha with heq | ha
    · obtain ⟨rfl, rfl⟩ := List.cons.inj heq
      exact htop.depth
    · exact absurd ha (by simp)
  case room => simp [hcallers]
  case bottom => simp [Machine.bottom, hcallers, Activation.Continues.refl]

/-- Between operations there is the top level and nothing else. -/
theorem Used.atTop (he : e.Used) : AtTop e.machine.current ∧ e.machine.callers = [] := by
  induction he with
  | new config => exact ⟨⟨rfl, rfl, rfl⟩, rfl⟩
  | load _ p ih => exact ih
  | add _ line ih => exact ih
  | ran _ hstart hm hend ih =>
    obtain ⟨htop, hcallers⟩ := hstart.atTop ih.1 ih.2
    have hlayered := (layered_of_atTop htop hcallers).moments hm
    obtain ⟨hend, hcur⟩ := hend.bottom
    refine ⟨?_, hend⟩
    show AtTop _
    rw [hcur]
    exact htop.continues hlayered.bottom

/-- The sessions without failures of their own accord are among these. -/
theorem Session.used (he : e.Session) : e.Used := by
  -- an operation runs from one of the starting states to its end
  have hrun : ∀ {e e₁ e' : Engine} {p : Program} {n : Nat} {o : Outcome}, e.Used →
      e.Starts (e₁.start p) → e₁.config = e.config → e₁.program = e.program →
      e₁.execute p n = (e', o) → o.ended = true → e'.Used := by
    intro e e₁ e' p n o he hstart hconfig hprogram hexec ho
    obtain ⟨m, hsteps, hstop⟩ := stops_of_execute hexec ho
    rw [hconfig] at hsteps hstop
    rw [eq_of_execute hconfig hprogram hexec]
    exact .ran he hstart hsteps.moments hstop.ends
  induction he with
  | new config => exact .new config
  | load _ p ih => exact .load ih p
  | add _ line ih => exact .add ih line
  | @exec e e' _ inputs n o hexec ho ih => exact hrun ih (.exec inputs) rfl rfl hexec ho
  | @runLine e e' _ line inputs clear n o hexec ho ih =>
    refine hrun ih (.runLine line inputs clear) ?_ ?_ hexec ho <;> cases clear <;> rfl

/-! ## The call stack mirrors the activations -/

/-- At every moment of every run the frame of the running activation is on top of the call stack,
each frame is as deep as there are frames below it, at the bottom is the frame of the top level, and
there are no more calls than allowed.  The call stack is kept by pushing a frame for each call and
popping one for each activation that ends.  However a run ends, that leaves the frame of the top
level only, and the engine is back at the top level it started from. -/
theorem callStack_mirrors (he : e.Used) (hstart : e.Starts m₀) (hm : Moments e.config m₀ m) :
    m.callStack.current = .ok m.current.frame ∧
      m.callStack.root = .ok m.bottom.frame ∧ AtTop m.bottom ∧ m₀.current.Continues m.bottom ∧
      (∀ f below, f :: below <:+ m.callStack.frames → f.depth = below.length) ∧
      m.callStack.depth ≤ e.config.maxDepth ∧
      (∀ m', Happens e.config m (.next m') → m.callStack.follow m m' = .ok m'.callStack) ∧
      ∀ m', Ends e.config m m' → m.callStack.follow m m' = .ok m'.callStack ∧
        m'.callStack.frames = [m'.current.frame] ∧ AtTop m'.current ∧
        m₀.current.Continues m'.current := by
  obtain ⟨htop₀, hcallers₀⟩ := hstart.atTop he.atTop.1 he.atTop.2
  have hlayered := (layered_of_atTop htop₀ hcallers₀).moments hm
  have htop : AtTop m.bottom := htop₀.continues hlayered.bottom
  refine ⟨rfl, ?_, htop, hlayered.bottom, ?_, ?_, fun m' h => follow_of_happens h, ?_⟩
  · obtain ⟨above, habove⟩ := m.activations_eq_bottom
    simp [CallStack.root, callStack, habove]
  · intro f below hf
    -- a suffix of the frames is a suffix of the activations
    obtain ⟨above, habove⟩ := hf
    obtain ⟨xs, ys, hacts, -, hys⟩ := List.map_eq_append_iff.mp habove.symm
    obtain ⟨a, as, rfl, rfl, rfl⟩ := List.map_eq_cons_iff.mp hys
    rw [List.length_map]
    exact hlayered.depth a as ⟨xs, hacts.symm⟩
  · have hdepth := hlayered.depth m.current m.callers (List.suffix_refl _)
    have hroom := hlayered.room
    simp only [CallStack.depth, callStack, activations, List.map_cons, hdepth]
    exact_mod_cast hroom
  · intro m' hend
    obtain ⟨hfollow, hframes⟩ := follow_of_ends hend
    obtain ⟨-, hcur⟩ := hend.bottom
    rw [hcur] at hframes ⊢
    exact ⟨hfollow, hframes, htop, hlayered.bottom⟩

/-- An engine whose receiver of output always fails, and whose program prints inside of two calls,
as many as are allowed. -/
def printingDeep : Engine :=
  (Engine.new { maxDepth := 2, strict := true, sinkFails := fun _ => true }).load <| .ofStrings
    ["BeginFunc g, 0", "print 1", "EndFunc", "BeginFunc f, 0", "call g, 0", "EndFunc", "call f, 0"]

/-- The state of `printingDeep` in front of its print. -/
def printingDeepCall : Machine := (printingDeep.exec [] 8).1.machine

/-- The failure leaves the run from the deepest call, and the frame of the top level is left. -/
theorem callStack_mirrors_escaping :
    printingDeepCall.callStack.frames.map (fun f => (f.name, f.depth)) =
        [("g", 2), ("f", 1), (rootName, 0)] ∧
      ∃ m', printingDeepCall.step printingDeep.config = .escaped m' "sink panic" ∧
        m'.callStack.frames = [m'.current.frame] ∧ AtTop m'.current := by
  have hfacts : printingDeepCall.callStack.frames.map (fun f => (f.name, f.depth)) =
        [("g", 2), ("f", 1), (rootName, 0)] ∧
      (printingDeep.exec [] 8).2 = .running ∧
      (printingDeepCall.run printingDeep.config 1).2 = .escaped "sink panic" := by
    decide +kernel
  obtain ⟨hframes, hrun, hlast⟩ := hfacts
  have hused : printingDeep.Used := .load (.new _) _
  have hreached : printingDeep.Reached printingDeepCall :=
    reached_exec printingDeep [] 8 hrun
  obtain ⟨m₀, hstart, hsteps⟩ := hreached
  obtain ⟨m', hs⟩ := escaped_of_run hlast
  obtain ⟨-, -, -, -, -, -, -, hends⟩ := callStack_mirrors hused hstart hsteps.moments
  obtain ⟨-, hroot, htop, -⟩ := hends m' (Or.inr ⟨_, happens_of_step hs⟩)
  exact ⟨hframes, m', hs, hroot, htop⟩

end Engine

end AddressCode
