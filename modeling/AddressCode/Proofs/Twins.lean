import AddressCode.Proofs.Copies
import AddressCode.Proofs.Renaming
import Mathlib.Data.Set.Piecewise

/-!
# AddressCode.Proofs.Twins — activations that cannot be told apart

Two activations are twins if they have the same text, place, labels, procedures and recording, and
the same variables and pending parameters up to the numbers of cells (`Activation.Twin`).  A line
does the same in both (`Activation.alike_effect`): it fails for the same reason, prints or returns
the same, or leaves twins behind.

Copies of equal contents are the same up to the numbers of cells (`Store.renames_args`), so that a
procedure that is called with such copies begins in twins, whoever calls it.
-/

namespace AddressCode

/-! ## Arguments of the same content -/

namespace Store

variable {ρ σ : Nat → Nat} {D E : Set Nat} {s t : Store} {v w : Value}

/-- Cells that are apart can be put together, if their numbers are apart as well. -/
theorem Renames.union (h : Renames ρ D s t) (h' : Renames σ E s t) (hdisj : Disjoint D E)
    (hapart : ∀ c ∈ D, ∀ d ∈ E, ρ c ≠ σ d) :
    ∃ τ, Renames τ (D ∪ E) s t ∧ Set.EqOn τ ρ D ∧ Set.EqOn τ σ E := by
  classical
  have hD : Set.EqOn (D.piecewise ρ σ) ρ D := Set.piecewise_eqOn D ρ σ
  have hE : Set.EqOn (D.piecewise ρ σ) σ E :=
    fun c hc => Set.piecewise_eqOn_compl D ρ σ (Set.disjoint_right.mp hdisj hc)
  refine ⟨D.piecewise ρ σ, ?_, hD, hE⟩
  constructor
  · rintro c (hc | hc)
    · rw [hD hc]
      exact h.exist c hc
    · rw [hE hc]
      exact h'.exist c hc
  · rintro c (hc | hc) d (hd | hd) heq
    · rw [hD hc, hD hd] at heq
      exact h.inj hc hd heq
    · rw [hD hc, hE hd] at heq
      exact absurd heq (hapart c hc d hd)
    · rw [hE hc, hD hd] at heq
      exact absurd heq.symm (hapart d hd c hc)
    · rw [hE hc, hE hd] at heq
      exact h'.inj hc hd heq
  · rintro c (hc | hc) e he
    · exact (h.closed c hc e he).mono Set.subset_union_left
    · exact (h'.closed c hc e he).mono Set.subset_union_right
  · rintro c (hc | hc)
    · rw [hD hc, h.elements c hc]
      exact Tree.map_congr fun e he => ((h.closed c hc e he).rename_eq hD).symm
    · rw [hE hc, h'.elements c hc]
      exact Tree.map_congr fun e he => ((h'.closed c hc e he).rename_eq hE).symm

/-- Copies of the same content are the same up to the numbers of cells. -/
theorem renames_copy (hv : s.Copied v) (hw : t.Copied w) (heq : s.content v = t.content w) :
    ∃ ρ D, Renames ρ D s t ∧ w = v.rename ρ ∧ v.Within D ∧
      ∀ c ∈ D, c ∈ s.footprint [v] ∧ ρ c ∈ t.footprint [w] := by
  obtain ⟨s₀, s₁, x, hx⟩ := hv
  obtain ⟨t₀, t₁, y, hy⟩ := hw
  obtain rfl : x = y := by rw [← hx.content, ← hy.content, heq]
  -- both were built from one content
  obtain ⟨ρ, D, t', hbuild, hgrows, hr, hwithin⟩ :=
    Renames.build_law.build x hx.built (Renames.empty s₀ t₀)
  obtain ⟨rfl, rfl⟩ : t₁ = t' ∧ w = v.rename ρ := by
    simpa using hy.built.symm.trans hbuild
  have hnew : ∀ c ∈ D, (s₀.cells.size ≤ c ∧ c < s₁.cells.size) ∧
      t₀.cells.size ≤ ρ c ∧ ρ c < t₁.cells.size := by
    intro c hc
    rcases hgrows.new c hc with hc | hc
    · cases hc
    · exact hc
  have hkeep : ∀ c ∈ D, s.elements c = s₁.elements c :=
    fun c hc => hx.kept c (hnew c hc).1.1 (hnew c hc).1.2
  refine ⟨ρ, D, ⟨?_, hr.inj, ?_, ?_⟩, rfl, hwithin, ?_⟩
  · intro c hc
    obtain ⟨hlt, hlt'⟩ := hr.exist c hc
    exact ⟨Nat.lt_of_lt_of_le hlt hx.size_le, Nat.lt_of_lt_of_le hlt' hy.size_le⟩
  · intro c hc e he
    rw [hkeep c hc] at he
    exact hr.closed c hc e he
  · intro c hc
    obtain ⟨-, hlo, hhi⟩ := hnew c hc
    rw [hkeep c hc, hy.kept (ρ c) hlo hhi]
    exact hr.elements c hc
  · intro c hc
    obtain ⟨⟨hlo, hhi⟩, hlo', hhi'⟩ := hnew c hc
    exact ⟨⟨v, by simp, hx.reach hlo hhi⟩, ⟨_, by simp, hy.reach hlo' hhi'⟩⟩

/-- Copies of the same contents that are apart are the same up to the numbers of cells, all of them
together. -/
theorem renames_args {vs ws : List Value} (hvs : ∀ v ∈ vs, s.Copied v) (hws : ∀ w ∈ ws, t.Copied w)
    (heq : vs.map s.content = ws.map t.content)
    (hv : vs.Pairwise fun v v' => Disjoint (s.footprint [v]) (s.footprint [v']))
    (hw : ws.Pairwise fun w w' => Disjoint (t.footprint [w]) (t.footprint [w'])) :
    ∃ ρ D, Renames ρ D s t ∧ ws = vs.map (Value.rename ρ) ∧ (∀ v ∈ vs, v.Within D) ∧
      ∀ c ∈ D, c ∈ s.footprint vs ∧ ρ c ∈ t.footprint ws := by
  induction vs generalizing ws with
  | nil =>
    obtain rfl : ws = [] := by simpa using heq.symm
    exact ⟨id, ∅, .empty s t, rfl, by simp, by simp⟩
  | cons v vs ih =>
    obtain ⟨w, ws, rfl⟩ : ∃ w ws', ws = w :: ws' := by
      cases ws with
      | nil => simp at heq
      | cons w ws => exact ⟨w, ws, rfl⟩
    obtain ⟨hhead, htail⟩ := List.cons.inj heq
    obtain ⟨hv₁, hv₂⟩ := List.pairwise_cons.mp hv
    obtain ⟨hw₁, hw₂⟩ := List.pairwise_cons.mp hw
    obtain ⟨ρ, D, hr, rfl, hwithin, hfoot⟩ :=
      renames_copy (hvs v (by simp)) (hws w (by simp)) hhead
    obtain ⟨σ, E, hr', rfl, hwithin', hfoot'⟩ :=
      ih (fun v hv => hvs v (by simp [hv])) (fun w hw => hws w (by simp [hw])) htail hv₂ hw₂
    -- the first copy is apart from each of the others, in both stores
    have hdisj : Disjoint D E := by
      rw [Set.disjoint_left]
      intro c hc hc'
      obtain ⟨u, hu, hreach⟩ := (hfoot' c hc').1
      exact Set.disjoint_left.mp (hv₁ u hu) (hfoot c hc).1 ⟨u, by simp, hreach⟩
    have hapart : ∀ c ∈ D, ∀ d ∈ E, ρ c ≠ σ d := by
      intro c hc d hd heq
      obtain ⟨u, hu, hreach⟩ := (hfoot' d hd).2
      exact Set.disjoint_left.mp (hw₁ u hu) (hfoot c hc).2 ⟨u, by simp, heq ▸ hreach⟩
    obtain ⟨τ, hτ, hD, hE⟩ := hr.union hr' hdisj hapart
    refine ⟨τ, D ∪ E, hτ, ?_, ?_, ?_⟩
    · rw [List.map_cons, hwithin.rename_eq hD]
      congr 1
      exact List.map_congr_left fun u hu => ((hwithin' u hu).rename_eq hE).symm
    · refine List.forall_mem_cons.mpr ⟨hwithin.mono Set.subset_union_left, ?_⟩
      exact fun u hu => (hwithin' u hu).mono Set.subset_union_right
    · rintro c (hc | hc)
      · rw [hD hc]
        obtain ⟨⟨u, hu, hreach⟩, u', hu', hreach'⟩ := hfoot c hc
        rw [List.mem_singleton] at hu hu'
        exact ⟨⟨u, by simp [hu], hreach⟩, u', by simp [hu'], hreach'⟩
      · rw [hE hc]
        obtain ⟨⟨u, hu, hreach⟩, u', hu', hreach'⟩ := hfoot' c hc
        exact ⟨⟨u, by simp [hu], hreach⟩, u', List.mem_cons_of_mem _ hu', hreach'⟩

end Store

/-! ## Scopes of the same content -/

namespace Scope

/-- Two scopes define the same procedures. -/
def Same (s s' : Scope) : Prop := ∀ name, s.find? name = s'.find? name

theorem forall₂_same_refl (scopes : List Scope) : List.Forall₂ Same scopes scopes :=
  List.forall₂_same.mpr fun _ _ _ => rfl

/-- In related scopes related procedures are found, and they are at home in related scopes. -/
theorem resolve?_rel {T : Scope → Scope → Prop} {R : Procedure → Procedure → Prop} {name : String}
    {scopes scopes' : List Scope}
    (hT : ∀ s s', T s s' → Option.Rel R (s.find? name) (s'.find? name))
    (h : List.Forall₂ T scopes scopes') :
    Option.Rel (fun r r' => R r.1 r'.1 ∧ List.Forall₂ T r.2 r'.2)
      (resolve? name scopes) (resolve? name scopes') := by
  induction h with
  | nil => exact .none
  | @cons s s' outer outer' hs hrest ih =>
    have hfind := hT s s' hs
    simp only [resolve?]
    generalize s.find? name = o, s'.find? name = o' at hfind ⊢
    cases hfind with
    | none => exact ih
    | some hR => exact .some ⟨hR, .cons hs hrest⟩

/-- A procedure is found alike, and at home in scopes of the same content. -/
theorem resolve?_same {name : String} {scopes scopes' : List Scope}
    (h : List.Forall₂ Same scopes scopes') :
    (resolve? name scopes = none ∧ resolve? name scopes' = none) ∨
      ∃ p home home', resolve? name scopes = some (p, home) ∧
        resolve? name scopes' = some (p, home') ∧ List.Forall₂ Same home home' := by
  have hsame : ∀ s s' : Scope, Same s s' → Option.Rel Eq (s.find? name) (s'.find? name) := by
    intro s s' hs
    rw [hs name]
    cases s'.find? name with
    | none => exact .none
    | some p => exact .some rfl
  have hfound := resolve?_rel hsame h
  generalize resolve? name scopes = o, resolve? name scopes' = o' at hfound ⊢
  cases hfound with
  | none => exact Or.inl ⟨rfl, rfl⟩
  | @some r r' hr =>
    obtain ⟨p, home⟩ := r
    obtain ⟨p', home'⟩ := r'
    obtain ⟨rfl, hhome⟩ := hr
    exact Or.inr ⟨p, home, home', rfl, rfl, hhome⟩

end Scope

/-! ## Twins -/

namespace Signal

/-- A signal with other numbers for the cells of its value. -/
def rename (ρ : Nat → Nat) : Signal → Signal
  | .ret v => .ret (v.rename ρ)
  | .print v line => .print (v.rename ρ) line
  | sig => sig

/-- The value of a signal is within the cells `D`. -/
def Within (D : Set Nat) : Signal → Prop
  | .ret v | .print v _ => v.Within D
  | _ => True

end Signal

/-- Two activations that cannot be told apart from inside.  What their callers do with the result is
not a part of it. -/
structure Activation.Twin (ρ : Nat → Nat) (D : Set Nat) (a b : Activation) : Prop where
  name : b.name = a.name
  depth : b.frame.depth = a.frame.depth
  heap : b.heap = a.heap.rename ρ
  params : b.params.values = a.params.values.map (Value.rename ρ)
  scope : b.scope = a.scope
  home : List.Forall₂ Scope.Same a.home b.home
  program : b.program = a.program
  labels : b.labels = a.labels
  pc : b.pc = a.pc
  recording : b.recording = a.recording
  variables_within : ∀ v ∈ a.heap.values, v.Within D
  params_within : ∀ v ∈ a.params.values, v.Within D

/-- Two effects that leave twins behind. -/
inductive Effect.Alike (ρ : Nat → Nat) (D : Set Nat) (s t : Store) : Effect → Effect → Prop where
  | signal {ρ' : Nat → Nat} {D' : Set Nat} {a b : Activation} {s' t' : Store} {sig : Signal}
      (hg : Store.Grows ρ D s t ρ' D' s' t') (hr : Store.Renames ρ' D' s' t')
      (htwin : a.Twin ρ' D' b) (hsig : sig.Within D') :
      Alike ρ D s t (.signal a s' sig) (.signal b t' (sig.rename ρ'))
  | enter {a b callee callee' : Activation} (htwin : a.Twin ρ D b)
      (hcallee : callee.Twin ρ D callee') (hresult : callee'.result = callee.result) :
      Alike ρ D s t (.enter a callee) (.enter b callee')
  | overflow : Alike ρ D s t .overflow .overflow

namespace Activation

variable {ρ ρ' : Nat → Nat} {D D' : Set Nat} {s s' t t' : Store} {a b : Activation} {limit : Nat}

/-- Twins stay twins when there are more cells. -/
theorem Twin.grow (h : a.Twin ρ D b) (hg : Store.Grows ρ D s t ρ' D' s' t') : a.Twin ρ' D' b := by
  refine ⟨h.name, h.depth, ?_, ?_, h.scope, h.home, h.program, h.labels, h.pc, h.recording, ?_, ?_⟩
  · rw [h.heap, Heap.rename_eq h.variables_within hg.agree]
  · rw [h.params]
    exact List.map_congr_left fun v hv => ((h.params_within v hv).rename_eq hg.agree).symm
  · exact fun v hv => (h.variables_within v hv).mono hg.subset
  · exact fun v hv => (h.params_within v hv).mono hg.subset

theorem Twin.scopes (h : a.Twin ρ D b) : List.Forall₂ Scope.Same a.scopes b.scopes := by
  refine .cons ?_ h.home
  rw [h.scope]
  exact fun _ => rfl

/-- Twins get the same values for a variable. -/
theorem Twin.withHeap (h : a.Twin ρ D b) {g : Heap} (hg : ∀ v ∈ g.values, v.Within D) :
    (a.withHeap g).Twin ρ D (b.withHeap (g.rename ρ)) :=
  ⟨h.name, h.depth, rfl, h.params, h.scope, h.home, h.program, h.labels, h.pc, h.recording, hg,
    h.params_within⟩

theorem Twin.withParams (h : a.Twin ρ D b) {vs ws : List Value}
    (hws : ws = vs.map (Value.rename ρ)) (hvs : ∀ v ∈ vs, v.Within D) :
    Twin ρ D { a with params := ⟨vs⟩ } { b with params := ⟨ws⟩ } :=
  ⟨h.name, h.depth, h.heap, hws, h.scope, h.home, h.program, h.labels, h.pc, h.recording,
    h.variables_within, hvs⟩

theorem Twin.withPc (h : a.Twin ρ D b) (pc : Nat) :
    Twin ρ D { a with pc := pc } { b with pc := pc } :=
  ⟨h.name, h.depth, h.heap, h.params, h.scope, h.home, h.program, h.labels, rfl, h.recording,
    h.variables_within, h.params_within⟩

theorem Twin.advance (h : a.Twin ρ D b) : a.advance.Twin ρ D b.advance := by
  have hpc := h.withPc (a.pc + 1)
  unfold Activation.advance
  rw [h.pc]
  exact hpc

theorem Twin.withRecording (h : a.Twin ρ D b) (r : Option Recording) :
    Twin ρ D { a with recording := r } { b with recording := r } :=
  ⟨h.name, h.depth, h.heap, h.params, h.scope, h.home, h.program, h.labels, h.pc, rfl,
    h.variables_within, h.params_within⟩

/-- Twins change their procedures alike. -/
theorem Twin.withScope (h : a.Twin ρ D b) (f : Scope → Scope) :
    Twin ρ D { a with scope := f a.scope } { b with scope := f b.scope } :=
  ⟨h.name, h.depth, h.heap, h.params, congrArg f h.scope, h.home, h.program, h.labels, h.pc,
    h.recording, h.variables_within, h.params_within⟩

/-- Twins record alike. -/
theorem Twin.record (h : a.Twin ρ D b) (r : Recording) (l : Line) :
    (a.record r l).Twin ρ D (b.record r l) := by
  unfold Activation.record
  split
  · exact h.withRecording none
  · exact (h.withScope (·.append r.proc l)).withRecording _

/-- The callee of twins is the same, with arguments that are the same up to the numbers of cells. -/
theorem twin_ofCall (p : Procedure) {depth : Nat} {home home' : List Scope} {vs : List Value}
    {result result' : String} (hhome : List.Forall₂ Scope.Same home home')
    (hvs : ∀ v ∈ vs, v.Within D) :
    (ofCall depth p home vs result).Twin ρ D
      (ofCall depth p home' (vs.map (Value.rename ρ)) result') := by
  refine ⟨rfl, rfl, ?_, rfl, rfl, hhome, rfl, rfl, rfl, rfl, ?_, ?_⟩
  · exact Heap.bindFrom_rename .empty 0 vs
  · intro v hv
    rcases Heap.mem_values_bind hv with hv | hv
    · exact hvs v hv
    · cases hv
  · intro v hv
    cases hv

/-! ## What a line does -/

/-- A signal without a value leaves twins as they are. -/
theorem alike_signal (h : a.Twin ρ D b) (hr : s.Renames ρ D t) {sig : Signal}
    (hsig : sig.Within D) :
    Effect.Alike ρ D s t (.signal a s sig) (.signal b t (sig.rename ρ)) :=
  .signal (.refl ρ D s t) hr h hsig

/-- Twins find the same value, or fail in the same way. -/
theorem Twin.eval (h : a.Twin ρ D b) (hr : s.Renames ρ D t) (x : Expr) :
    x.eval b.heap t = (x.eval a.heap s).map (Value.rename ρ) := by
  rw [h.heap]
  exact hr.eval h.variables_within x

/-- Twins have enough parameters for a call, or neither has. -/
theorem Twin.take (h : a.Twin ρ D b) (n : Int) :
    (a.params.take? n = none ∧ b.params.take? n = none) ∨
      ∃ vs rest, a.params.take? n = some (vs, ⟨rest⟩) ∧
        b.params.take? n = some (vs.map (Value.rename ρ), ⟨rest.map (Value.rename ρ)⟩) ∧
        (∀ v ∈ vs, v.Within D) ∧ ∀ v ∈ rest, v.Within D := by
  unfold Params.take?
  simp only [h.params, List.length_map]
  split
  · refine Or.inr ⟨_, _, rfl, ?_, ?_, ?_⟩
    · rw [List.map_take, List.map_drop]
    · exact fun v hv => h.params_within v (List.mem_of_mem_take hv)
    · exact fun v hv => h.params_within v (List.mem_of_mem_drop hv)
  · exact Or.inl ⟨rfl, rfl⟩

theorem alike_call (h : a.Twin ρ D b) (hr : s.Renames ρ D t) (proc : String) (count : Option Nat)
    (result : Option String) :
    Effect.Alike ρ D s t (a.call limit s proc count result) (b.call limit t proc count result) := by
  simp only [call_eq, fault]
  rcases Scope.resolve?_same h.scopes with ⟨hp, hp'⟩ | ⟨p, home, home', hp, hp', hhome⟩
  · rw [hp, hp']
    exact alike_signal h hr trivial
  · have hsize : b.params.size = a.params.size := by simp [Params.size, h.params]
    simp only [hp, hp', h.depth, hsize]
    split
    · exact alike_signal h hr trivial
    · split
      · exact alike_signal h hr trivial
      · rcases h.take p.arity with ⟨ht, ht'⟩ | ⟨vs, rest, ht, ht', hvs, hrest⟩
        · rw [ht, ht']
          exact alike_signal h hr trivial
        · rw [ht, ht']
          exact .enter (h.withParams rfl hrest) (twin_ofCall p hhome hvs) rfl

/-- Twins copy a parameter alike, or both copies have no end. -/
theorem alike_param (h : a.Twin ρ D b) (hr : s.Renames ρ D t) (x : Expr) :
    Effect.Alike ρ D s t (a.execute limit s (.param x)) (b.execute limit t (.param x)) := by
  simp only [execute, h.eval hr x]
  cases hx : x.eval a.heap s with
  | error c => exact alike_signal h hr trivial
  | ok v =>
    have hv := hr.within_eval h.variables_within hx
    simp only [Except.map, Params.push?]
    cases hw : s.clone? v with
    | none =>
      rw [hr.clone_none hv hw]
      exact .overflow
    | some r =>
      obtain ⟨s', w⟩ := r
      obtain ⟨ρ', D', t', ht, hg, hr', hwithin⟩ := hr.clone hv hw
      rw [ht]
      have h' := h.grow hg
      refine .signal hg hr' (h'.withParams ?_ ?_) trivial
      · rw [h'.params, List.map_append, List.map_singleton]
      · intro u hu
        rcases List.mem_append.mp hu with hu | hu
        · exact h'.params_within u hu
        · rw [List.mem_singleton] at hu
          rw [hu]
          exact hwithin

theorem alike_assign (h : a.Twin ρ D b) (hr : s.Renames ρ D t) (target : Target) (x : Expr) :
    Effect.Alike ρ D s t (a.execute limit s (.assign target x))
      (b.execute limit t (.assign target x)) := by
  simp only [execute_assign, h.eval hr x]
  cases hx : x.eval a.heap s with
  | error c => exact alike_signal h hr trivial
  | ok v =>
    have hv := hr.within_eval h.variables_within hx
    simp only [Except.map]
    rw [h.heap]
    cases ha : target.assign a.heap s v with
    | error c =>
      rw [hr.assign_error h.variables_within ha]
      exact alike_signal h hr trivial
    | ok r =>
      obtain ⟨g, s'⟩ := r
      obtain ⟨ρ', D', t', ht, hg, hr', hwithin⟩ := hr.assign h.variables_within hv ha
      rw [ht]
      exact .signal hg hr' ((h.grow hg).withHeap hwithin) trivial

/-- Twins do the same.  The induction follows the conditions in front of the core. -/
theorem alike_execute (h : a.Twin ρ D b) (hr : s.Renames ρ D t) (ins : Instr) :
    Effect.Alike ρ D s t (a.execute limit s ins) (b.execute limit t ins) := by
  induction ins with
  | noop => exact alike_signal h hr trivial
  | ifThen cond action ih =>
    simp only [execute, h.eval hr cond]
    cases cond.eval a.heap s with
    | error c => exact alike_signal h hr trivial
    | ok v =>
      simp only [Except.map, Value.truthy_rename]
      split
      · exact ih
      · exact alike_signal h hr trivial
  | print x | expression x =>
    simp only [execute, h.eval hr x, h.pc]
    cases hx : x.eval a.heap s with
    | error c => exact alike_signal h hr trivial
    | ok v => exact alike_signal h hr (hr.within_eval h.variables_within hx)
  | ret x =>
    cases x with
    | none => exact alike_signal h hr (by rintro c ⟨⟩)
    | some x =>
      simp only [execute, h.eval hr x]
      cases hx : x.eval a.heap s with
      | error c => exact alike_signal h hr trivial
      | ok v => exact alike_signal h hr (hr.within_eval h.variables_within hx)
  | goto label =>
    simp only [execute, h.labels]
    split
    · exact alike_signal h hr trivial
    · exact alike_signal h hr trivial
  | call proc count result => exact alike_call h hr proc count result
  | param x => exact alike_param h hr x
  | beginFunc name arity =>
    exact alike_signal ((h.withScope (·.define ⟨name, arity, #[]⟩)).withRecording _) hr trivial
  | endFunc => exact alike_signal h hr trivial
  | assign target x => exact alike_assign h hr target x

/-- A line does the same in twins. -/
theorem alike_effect (h : a.Twin ρ D b) (hr : s.Renames ρ D t) (l : Line) :
    Effect.Alike ρ D s t (a.effect limit s l) (b.effect limit t l) := by
  unfold effect
  cases l.instr with
  | error e => exact alike_signal h hr trivial
  | ok ins => exact alike_execute h hr ins

/-- Callers that are twins get the same result. -/
theorem Twin.resume (h : a.Twin ρ D b) (result : String) {v : Option Value}
    (hv : ∀ w ∈ v, w.Within D) :
    (Machine.resume a result v).Twin ρ D
      (Machine.resume b result (v.map (Value.rename ρ))) := by
  cases v with
  | none => exact h.advance
  | some v =>
    have hw : v.Within D := hv v rfl
    unfold Machine.resume
    cases hd : v.isDefined with
    | false => simpa [Option.filter, hd] using h.advance
    | true =>
      simp only [Option.filter, Option.map_some, Value.isDefined_rename, hd, if_true]
      rw [h.heap, Heap.set_rename]
      exact (h.withHeap (Heap.within_set h.variables_within hw)).advance

end Activation

end AddressCode
