import AddressCode.Proofs.Causes
import AddressCode.Proofs.Forms
import AddressCode.Proofs.Frames
import AddressCode.Proofs.Halting
import AddressCode.Proofs.Recording
import AddressCode.Proofs.Values

/-!
# AddressCode.Proofs.Storage — nothing is missing in a run

An internal fault is raised only where an array is read that has no storage, or where a receiver of
output fails.  `Value.Stored` says that a value is no such array; it holds of every value of a run
(`stored_law`), since arrays are made together with their cell and copies have cells of their own.

Jumps lead to lines of the program (`Program.visible_of_lookup?`), and an instruction that is read
is well formed.  So no instruction finds anything missing that it needs, and as long as no receiver
fails there is no internal fault (`no_internal_fault`).
-/

namespace AddressCode

/-! ## Arrays with storage -/

/-- A value that is an array refers to a cell of the store. -/
def Value.Stored (s : Store) : Value → Prop
  | .array cell => ∃ c, cell = some c ∧ c < s.cells.size
  | _ => True

/-- All elements of arrays have storage. -/
def Store.Closed (s : Store) : Prop := ∀ c, ∀ e ∈ (s.elements c).entries, e.2.Stored s

/-- There is no array without storage in a content. -/
inductive Content.Allocated : Content → Prop where
  | undefined : Allocated .undefined
  | scalar (x : Number) : Allocated (.scalar x)
  | boolean (b : Bool) : Allocated (.boolean b)
  | pointer (name : String) : Allocated (.pointer name)
  | array {items : List (Number × Content)} (h : ∀ e ∈ items, Allocated e.2) :
      Allocated (.array items)
  | cycle : Allocated .cycle

namespace Store

variable {s s' : Store} {v : Value}

theorem stored_grow (hle : s.cells.size ≤ s'.cells.size) (hv : v.Stored s) : v.Stored s' := by
  cases v with
  | array cell =>
    obtain ⟨c, hc, hlt⟩ := hv
    exact ⟨c, hc, Nat.lt_of_lt_of_le hlt hle⟩
  | _ => trivial

/-- All arrays found in a value with storage exist. -/
theorem reach_lt {c : Nat} (hclosed : s.Closed) (hv : v.Stored s) (h : s.Reach v c) :
    c < s.cells.size := by
  induction h with
  | here c =>
    obtain ⟨_, ⟨⟩, hlt⟩ := hv
    exact hlt
  | inside he _ ih => exact ih (hclosed _ _ he)

/-- A new array of values with storage has storage, and so have all elements in the store. -/
theorem Closed.alloc (h : s.Closed) {es : Elements} (hes : ∀ e ∈ es.entries, e.2.Stored s) :
    (s.alloc es).1.Closed ∧ (s.alloc es).2.Stored (s.alloc es).1 := by
  have hsize : (s.alloc es).1.cells.size = s.cells.size + 1 := by simp [Store.alloc]
  have hle : s.cells.size ≤ (s.alloc es).1.cells.size := by
    rw [hsize]
    exact Nat.le_succ _
  refine ⟨?_, s.cells.size, rfl, by rw [hsize]; exact Nat.lt_succ_self _⟩
  intro c e he
  rcases Nat.lt_trichotomy c s.cells.size with hlt | rfl | hgt
  · rw [elements_alloc_of_lt es hlt] at he
    exact stored_grow hle (h c e he)
  · rw [elements_alloc_size] at he
    exact stored_grow hle (hes e he)
  · have hnone : (s.alloc es).1.cells.size ≤ c := by
      rw [hsize]
      exact hgt
    rw [elements_of_le hnone] at he
    cases he

theorem Closed.set (h : s.Closed) {c : Nat} {i : Number} (hv : v.Stored s) :
    (s.set c i v).Closed := by
  have hle : s.cells.size ≤ (s.set c i v).cells.size := by simp [Store.set]
  intro d e he
  rcases mem_elements_set he with heq | he
  · rw [heq]
    exact stored_grow hle hv
  · exact stored_grow hle (h d e he)

/-- The content of a value with storage has storage throughout.  The induction is on the depth to
which the content is written out. -/
theorem Closed.allocated_contentFrom (h : s.Closed) {n : Nat} {path : List Nat}
    (hv : v.Stored s) : (s.contentFrom n path v).Allocated := by
  induction n generalizing path v with
  | zero =>
    cases v with
    | undefined => exact .undefined
    | scalar x => exact .scalar x
    | boolean b => exact .boolean b
    | pointer name => exact .pointer name
    | array cell =>
      obtain ⟨c, rfl, -⟩ := hv
      exact .cycle
  | succ n ih =>
    cases v with
    | undefined => exact .undefined
    | scalar x => exact .scalar x
    | boolean b => exact .boolean b
    | pointer name => exact .pointer name
    | array cell =>
      obtain ⟨c, rfl, -⟩ := hv
      simp only [contentFrom]
      split
      · exact .cycle
      · refine .array ?_
        intro e he
        obtain ⟨e', he', rfl⟩ := List.mem_map.mp he
        exact ih (h c e' he')

/-- What is built from a content with storage has storage, and so have the elements that are built
from contents. -/
theorem closed_law : BuildLaw
    (fun s x s' v => x.Allocated → s.Closed → s'.Closed ∧ v.Stored s')
    (fun s items s' es => (∀ e ∈ items, e.2.Allocated) → s.Closed →
      s'.Closed ∧ ∀ e ∈ es, e.2.Stored s') where
  leaf {_ x _} hleaf hx h := by
    refine ⟨h, ?_⟩
    cases hx <;> cases hleaf <;> trivial
  array _ hitems hx h := by
    cases hx with
    | array hall =>
      obtain ⟨h', hstored⟩ := hitems hall h
      exact h'.alloc fun e he => hstored e (Tree.mem_entries_ofList he)
  nil _ h := ⟨h, by simp⟩
  cons {_ _ _ i x _ rest _} _ hes hx hrest hall h := by
    obtain ⟨h₁, hstored⟩ := hx (hall (i, x) (by simp)) h
    obtain ⟨h₂, hstored'⟩ := hrest (fun e he => hall e (by simp [he])) h₁
    refine ⟨h₂, ?_⟩
    intro e he
    rcases List.mem_cons.mp he with rfl | he
    · exact stored_grow (Fresh.buildItems rest hes).changes.size_le hstored
    · exact hstored' e he

/-- Every array of a run has storage. -/
theorem stored_law : ValueLaw Closed fun s v => v.Stored s where
  empty := by
    intro c e he
    rw [elements_empty] at he
    cases he
  plain {_ v} hv := by
    cases v with
    | array cell => cases hv
    | _ => trivial
  grow hle hv := stored_grow hle hv
  element h he := h _ _ he
  alloc h hv _ := by
    refine h.alloc ?_
    intro e he
    have he' := Tree.mem_entries_ofList he
    rw [List.mem_singleton] at he'
    rw [he']
    exact hv
  set h hv _ := h.set hv
  clone h hv hw := closed_law.build _ hw (h.allocated_contentFrom hv) h

end Store

/-- Where all arrays have storage, none is missing. -/
theorem Heap.not_lacksStorage {h : Heap} {s : Store} (hheap : ∀ v ∈ h.values, v.Stored s) :
    ¬ h.LacksStorage s := by
  rintro ⟨name, cell, hcell, hnone⟩
  obtain ⟨c, rfl, hlt⟩ := hheap _ (mem_values_of_lookup hcell)
  simp only [Option.bind_some, Store.get?, Array.getElem?_eq_none_iff] at hnone
  omega

/-! ## Jumps -/

namespace Machine

variable {cfg : Config} {m m' : Machine}

/-- Every activation has the labels of its program. -/
def Labelled (m : Machine) : Prop :=
  ∀ a ∈ m.activations, a.labels = Program.labels a.program

theorem Labelled.step (h : m.Labelled) (hs : m.step cfg = .next m') : m'.Labelled := by
  have hold : ∀ {a a' : Activation}, a.Continues a' → a.labels = Program.labels a.program →
      a'.labels = Program.labels a'.program := by
    intro a a' hcont ha
    rw [hcont.labels, hcont.program]
    exact ha
  intro a ha
  rcases List.mem_cons.mp ha with rfl | ha
  · cases shift_of_step hs with
    | stay _ hcont => exact hold hcont (h m.current (by simp [activations]))
    | push henter =>
      rw [henter.state]
      rfl
    | @pop c hc hcont => exact hold hcont (h c (by simp [activations, hc]))
  · refine waiting_of_step hs (P := fun a => a.labels = Program.labels a.program) ?_ ?_ a ha
    · intro c hc
      exact h c (by simp [activations, hc])
    · intro p home result _
      exact h m.current (by simp [activations])

theorem labelled_kept : Engine.Kept Labelled where
  initial k := by
    intro a ha
    rw [List.mem_singleton.mp ha]
    rfl
  launch inputs p h := by
    intro a ha
    rcases List.mem_cons.mp ha with rfl | ha
    · rfl
    · exact h a (List.mem_cons_of_mem _ ha)
  step h hs := h.step hs
  stop {_ m _} h hstop := by
    obtain ⟨hcur, hcallers, -⟩ := hstop.spec
    intro a ha
    unfold activations at ha
    rw [hcallers, hcur, List.mem_singleton] at ha
    rw [ha]
    exact h m.bottom m.bottom_mem

end Machine

/-! ## Faults that are reported -/

namespace Machine

variable {cfg : Config} {m m' : Machine} {f : Fault}

/-- A fault that a step reports is raised by its line, if no receiver fails. -/
theorem raises_of_step (hsink : ∀ k, cfg.sinkFails k = false) {o : Step} (hs : m.step cfg = o)
    (hf : Event.faulted f ∈ o.state.events) : Event.faulted f ∈ m.events ∨ m.Raises cfg f := by
  cases takes_of_step hs with
  | fault hl he _ | halt hl he _ =>
    rcases Array.mem_push.mp hf with hf | hf
    · exact Or.inl hf
    · cases hf
      exact Or.inr ⟨_, _, hl, he, rfl⟩
  | print | escape =>
    rcases Array.mem_push.mp hf with hf | hf
    · exact Or.inl hf
    · cases hf
  | sinkFault _ _ hfail | sinkHalt _ _ hfail => simp [hsink] at hfail
  | _ => exact Or.inl hf

/-- What holds of every fault that is raised holds of every fault that a run reports. -/
theorem reported_of_run {P : Machine → Prop} {Q : Fault → Prop}
    (hsink : ∀ k, cfg.sinkFails k = false)
    (hstep : ∀ m m', P m → m.step cfg = .next m' → P m')
    (hraise : ∀ m f, P m → m.Raises cfg f → Q f) (n : Nat) (hm : P m)
    (hold : ∀ f, Event.faulted f ∈ m.events → Q f) :
    ∀ f, Event.faulted f ∈ (m.run cfg n).1.events → Q f := by
  induction n generalizing m with
  | zero => exact hold
  | succ n ih =>
    have hnew : ∀ {o : Step}, m.step cfg = o → ∀ f, Event.faulted f ∈ o.state.events → Q f := by
      intro o hs f hf
      rcases raises_of_step hsink hs hf with hf | hf
      · exact hold f hf
      · exact hraise m f hm hf
    unfold run
    cases hs : m.step cfg with
    | next m' => exact ih (hstep m m' hm hs) (hnew hs)
    | done m' r => exact hnew hs
    | escaped m' message => exact hnew hs
    | aborted m' => exact hnew hs

/-- The fault that halts a run is reported. -/
theorem reported_of_finished {n : Nat} {r : Result} (h : (m.run cfg n).2 = .finished r)
    (hf : r.fault = some f) : Event.faulted f ∈ (m.run cfg n).1.events := by
  induction n generalizing m with
  | zero => cases h
  | succ n ih =>
    unfold run at h ⊢
    cases hs : m.step cfg with
    | next m' =>
      rw [hs] at h
      exact ih h
    | escaped m' message =>
      rw [hs] at h
      cases h
    | aborted m' =>
      rw [hs] at h
      cases h
    | done m' r' =>
      rw [hs] at h
      cases h
      cases takes_of_step hs with
      | finish | finishWith => cases hf
      | halt | sinkHalt =>
        cases hf
        exact Array.mem_push_self

/-! ## Nothing is missing -/

/-- Whatever an instruction needs is there. -/
structure NothingMissing (cfg : Config) (m : Machine) : Prop where
  /-- all arrays have storage -/
  storage : m.Holds Store.Closed fun s v => v.Stored s
  /-- the line that is carried out is well formed -/
  line : ∀ l ins, m.At l → l.instr = .ok ins → ins.WellFormed
  /-- no instruction raises an internal fault -/
  faults : ∀ ins a s c, m.current.execute cfg.maxDepth m.store ins = .signal a s (.fault c) →
    c.kind ≠ .internalError
  /-- a jump leads to a line -/
  jumps : ∀ l a s position, m.At l → m.effect cfg l = .signal a s (.jump position) →
    position < m.current.program.size
  /-- a call stack that follows the run is never popped without a frame -/
  frames : ∀ m', m.step cfg = .next m' ∨ Stops cfg m m' →
    m.callStack.follow m m' = .ok m'.callStack

/-- Where arrays have storage, an instruction raises no internal fault. -/
theorem not_internal_of_fault {limit : Nat} {a a' : Activation} {s s' : Store} {c : Cause}
    {ins : Instr} (ha : a.Holds (fun s v => v.Stored s) s)
    (he : a.execute limit s ins = .signal a' s' (.fault c)) : c.kind ≠ .internalError := by
  intro hkind
  rcases Activation.origin_of_fault he with hvalue | ⟨hother, -⟩
  · exact Heap.not_lacksStorage ha.heap (hvalue.storage hkind)
  · rw [Cause.ofValue_of_internal hkind] at hother
    cases hother

/-- A line that raises a fault carries out an instruction that does, or holds none. -/
theorem Raises.not_internal (h : m.Raises cfg f) (hm : m.Holds Store.Closed fun s v => v.Stored s) :
    f.kind ≠ .internalError := by
  obtain ⟨l, c, hl, he, rfl⟩ := h
  unfold effect Activation.effect at he
  split at he
  · cases he
    simp [Fault.kind, Cause.kind]
  · exact not_internal_of_fault hm.current he

end Machine

/-- The instruction of a line is well formed. -/
theorem Line.wellFormed_of_instr {l : Line} {ins : Instr} (h : l.instr = .ok ins) :
    ins.WellFormed := by
  rw [l.instr_eq] at h
  cases hc : classify l.pieces with
  | error e =>
    rw [hc] at h
    cases h
  | ok st =>
    rw [hc] at h
    cases h
    exact classify_wellFormed hc

namespace Engine

open Machine

variable {e : Engine} {m : Machine}

theorem nothingMissing_of_reached (he : e.Session) (hm : e.Reached m) :
    m.NothingMissing e.config := by
  have hstored := Store.stored_law.kept.reached he hm
  have hlabels := labelled_kept.reached he hm
  constructor
  case storage => exact hstored
  case line =>
    intro l ins _ hins
    exact Line.wellFormed_of_instr hins
  case faults =>
    intro ins a s c h
    exact not_internal_of_fault hstored.current h
  case jumps =>
    intro l a s position _ h
    obtain ⟨label, hp⟩ := (does_of_effect h).label_of_jump
    rw [hlabels m.current (by simp [activations])] at hp
    exact (Program.visible_of_lookup? hp).lt_size
  case frames =>
    rintro m' (hs | hstop)
    · exact follow_of_happens (happens_of_step hs)
    · exact (follow_of_ends hstop.ends).1

/-- As long as no receiver fails, no operation raises an internal fault.  Every instruction that is
read is well formed, and at every moment of every run it finds what it needs: arrays have storage,
jumps lead to lines, and a frame is on the call stack for each that is popped. -/
theorem no_internal_fault (he : e.Session) (hsink : ∀ k, e.config.sinkFails k = false) :
    (∀ line st, classify line = .ok st → st.instr.WellFormed) ∧
      (∀ m, e.Reached m → m.NothingMissing e.config) ∧
      (∀ m₀ n, e.Starts m₀ →
        (∀ f, Event.faulted f ∈ (m₀.run e.config n).1.events → f.kind ≠ .internalError) ∧
        ∀ r f, (m₀.run e.config n).2 = .finished r → r.fault = some f →
          f.kind ≠ .internalError) ∧
      ∀ text c, e.get text = .error (.fault c) → c.kind ≠ .internalError := by
  have hkept := Store.stored_law.kept
  refine ⟨fun line st h => classify_wellFormed h, fun m hm => nothingMissing_of_reached he hm,
    ?_, ?_⟩
  · intro m₀ n hstart
    have hreported : ∀ f, Event.faulted f ∈ (m₀.run e.config n).1.events →
        f.kind ≠ .internalError := by
      refine reported_of_run hsink (fun m m' hm hs => hkept.step hm hs)
        (fun m f hm hf => hf.not_internal hm) n (hkept.starts (hkept.session he) hstart) ?_
      rw [hstart.events]
      exact fun f hf => absurd hf (Array.not_mem_empty _)
    exact ⟨hreported, fun r f hr hf => hreported f (reported_of_finished hr hf)⟩
  · intro text c h
    have hstored := hkept.session he
    unfold get at h
    split at h
    · cases h
    · split at h
      · cases h
      · rename_i hx
        cases h
        intro hkind
        exact Heap.not_lacksStorage hstored.current.heap
          ((Expr.ofValues_of_eval hx).storage hkind)
    · cases h

/-- An engine whose program reads an array through another variable, inside of a call and at the top
level, where there is no element. -/
def readingBeyond : Engine := (Engine.new {}).load <| .ofStrings
  ["BeginFunc f, 1", "b = p0", "print b[2]", "EndFunc", "a[0] = 1", "param a", "call f, 1",
    "x = a[a[0]]"]

/-- Both faults are reported, and none of them is an internal one. -/
theorem no_internal_fault_readingBeyond :
    (((readingBeyond.reset.bind []).start readingBeyond.program).run
        readingBeyond.config 12).1.events.size = 2 ∧
      ∀ f, Event.faulted f ∈ (((readingBeyond.reset.bind []).start readingBeyond.program).run
        readingBeyond.config 12).1.events → f.kind ≠ .internalError := by
  have hsession : readingBeyond.Session := .load (.new _) _
  obtain ⟨-, -, hrun, -⟩ := no_internal_fault hsession fun _ => rfl
  exact ⟨by decide +kernel, (hrun _ 12 (.exec [])).1⟩

end Engine

end AddressCode
