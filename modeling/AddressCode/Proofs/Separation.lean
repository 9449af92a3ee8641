import AddressCode.Proofs.Reach
import AddressCode.Proofs.Runs
import Mathlib.Data.List.Flatten

/-!
# AddressCode.Proofs.Separation — activations share no arrays

Arrays are references, and assigning, returning and printing them shares them.  Only handing over a
parameter makes a copy.  That is enough to keep the arrays of all activations apart: in every state
of every run, no array is found both in the variables or pending parameters of one activation and in
those of another, and a pending parameter shares nothing with anything else (`Machine.Isolated`).

The invariant is stated over *regions*: the variables of an activation are one, and each pending
parameter is one of its own.  A call joins the regions of its arguments to the variables of the
callee, and a return joins a part of the callee's variables to those of the caller; all else
happens inside one region or makes a new one.
-/

namespace AddressCode

/-! ## Regions that are apart -/

namespace Store

/-- No two regions hold a common cell, and all cells they hold exist. -/
structure Apart (s : Store) (rs : List (List Value)) : Prop where
  exist : ∀ r ∈ rs, ∀ c ∈ s.footprint r, c < s.cells.size
  disjoint : rs.Pairwise fun r r' => Disjoint (s.footprint r) (s.footprint r')

namespace Apart

variable {s s' : Store} {r r' : List Value} {rs rs' : List (List Value)}

theorem perm (h : s.Apart rs) (hp : rs.Perm rs') : s.Apart rs' := by
  refine ⟨fun r hr => h.exist r (hp.mem_iff.mpr hr), ?_⟩
  exact (hp.pairwise_iff fun hd => Disjoint.symm hd).mp h.disjoint

theorem sublist (h : s.Apart rs) (hsub : rs'.Sublist rs) : s.Apart rs' :=
  ⟨fun r hr => h.exist r (hsub.subset hr), h.disjoint.sublist hsub⟩

/-- A region may change its cells, make new ones, and hold what it held and what it made. -/
theorem update (h : s.Apart (r :: rs)) (hch : Changes s s' (s.footprint r))
    (hr' : s'.footprint r' ⊆ s.footprint r ∪ added s s') : s'.Apart (r' :: rs) := by
  obtain ⟨hhead, htail⟩ := List.pairwise_cons.mp h.disjoint
  have hlt : ∀ q ∈ rs, ∀ c ∈ s.footprint q, c < s.cells.size :=
    fun q hq => h.exist q (List.mem_cons_of_mem r hq)
  -- the other regions hold what they held
  have hkeep : ∀ q ∈ rs, s'.footprint q = s.footprint q :=
    fun q hq => hch.footprint_eq (hlt q hq) (hhead q hq)
  refine ⟨?_, List.pairwise_cons.mpr ⟨?_, ?_⟩⟩
  · intro q hq c hc
    rcases List.mem_cons.mp hq with rfl | hq
    · rcases hr' hc with hc | hc
      · exact Nat.lt_of_lt_of_le (h.exist r (List.mem_cons_self) c hc) hch.size_le
      · exact hc.2
    · rw [hkeep q hq] at hc
      exact Nat.lt_of_lt_of_le (hlt q hq c hc) hch.size_le
  · intro q hq
    rw [hkeep q hq, Set.disjoint_left]
    intro c hc hcq
    rcases hr' hc with hc | hc
    · exact Set.disjoint_left.mp (hhead q hq) hc hcq
    · exact absurd (hlt q hq c hcq) (Nat.not_lt_of_le hc.1)
  · refine htail.imp_of_mem ?_
    intro q q' hq hq' hd
    rw [hkeep q hq, hkeep q' hq']
    exact hd

/-- A region may hold less. -/
theorem shrink (h : s.Apart (r :: rs)) (hr' : s.footprint r' ⊆ s.footprint r) :
    s.Apart (r' :: rs) :=
  h.update (.refl s _) (hr'.trans Set.subset_union_left)

/-- A region that holds nothing is apart from all. -/
theorem nil_cons (h : s.Apart rs) : s.Apart ([] :: rs) := by
  refine ⟨?_, List.pairwise_cons.mpr ⟨by simp, h.disjoint⟩⟩
  intro q hq c hc
  rcases List.mem_cons.mp hq with rfl | hq
  · simp at hc
  · exact h.exist q hq c hc

/-- Values in new cells are a region of their own. -/
theorem fresh (h : s.Apart rs) (hf : Fresh s s' r) : s'.Apart (r :: rs) := by
  apply h.nil_cons.update
  · simpa using hf.changes
  · exact hf.footprint_subset.trans Set.subset_union_right

/-- Two regions may become one. -/
theorem merge (h : s.Apart (r :: r' :: rs)) : s.Apart ((r ++ r') :: rs) := by
  obtain ⟨hhead, htail⟩ := List.pairwise_cons.mp h.disjoint
  obtain ⟨hhead', htail'⟩ := List.pairwise_cons.mp htail
  refine ⟨?_, List.pairwise_cons.mpr ⟨?_, htail'⟩⟩
  · intro q hq c hc
    rcases List.mem_cons.mp hq with rfl | hq
    · rw [footprint_append] at hc
      rcases hc with hc | hc
      · exact h.exist r (by simp) c hc
      · exact h.exist r' (by simp) c hc
    · exact h.exist q (by simp [hq]) c hc
  · intro q hq
    rw [footprint_append, Set.disjoint_union_left]
    exact ⟨hhead q (by simp [hq]), hhead' q hq⟩

/-- Values that are apart may become one region. -/
theorem gather {vs : List Value} (h : s.Apart (vs.map (fun v => [v]) ++ rs)) :
    s.Apart (vs :: rs) := by
  induction vs generalizing rs with
  | nil => exact h.nil_cons
  | cons v vs ih =>
    -- the first value waits behind the others until these are one region
    have hback : s.Apart (vs.map (fun v => [v]) ++ [v] :: rs) := h.perm List.perm_middle.symm
    exact ((ih hback).perm (.swap _ _ _)).merge

end Apart

end Store

/-! ## Regions of a run -/

namespace Activation

/-- The variables, and each pending parameter. -/
def regions (a : Activation) : List (List Value) :=
  a.heap.values :: a.params.values.map fun v => [v]

/-- The cells that an activation holds in its variables and pending parameters. -/
def footprint (s : Store) (a : Activation) : Set Nat :=
  s.footprint (a.heap.values ++ a.params.values)

theorem mem_footprint {s : Store} {a : Activation} {c : Nat} :
    c ∈ a.footprint s ↔ ∃ r ∈ a.regions, c ∈ s.footprint r := by
  simp only [footprint, Store.footprint_append, Set.mem_union, regions, List.mem_cons,
    List.mem_map]
  constructor
  · rintro (hc | ⟨v, hv, hc⟩)
    · exact ⟨_, Or.inl rfl, hc⟩
    · exact ⟨[v], Or.inr ⟨v, hv, rfl⟩, v, by simp, hc⟩
  · rintro ⟨r, rfl | ⟨v, hv, rfl⟩, hc⟩
    · exact Or.inl hc
    · obtain ⟨w, hw, hc⟩ := hc
      rw [List.mem_singleton] at hw
      exact Or.inr ⟨v, hv, hw ▸ hc⟩

variable {limit : Nat} {a a' : Activation} {s s' : Store} {l : Line} {R : List (List Value)}

/-- The value that a line prints or returns holds nothing that the variables do not hold. -/
theorem Does.reach_value {v : Value} {d : Nat}
    (hd : (∃ line, a.Does limit s l (.signal a' s' (.print v line))) ∨
      a.Does limit s l (.signal a' s' (.ret v)))
    (hr : s.Reach v d) : d ∈ s.footprint a.heap.values := by
  rcases hd with ⟨line, hd⟩ | hd
  · cases hd with
    | print _ hv => exact Store.reach_eval hv hr
  · cases hd with
    | leave => cases hr
    | ret _ hv => exact Store.reach_eval hv hr

/-- A line changes no array but those that its variables hold. -/
theorem Does.changes {sig : Signal} (hlt : ∀ c ∈ s.footprint a.heap.values, c < s.cells.size)
    (hd : a.Does limit s l (.signal a' s' sig)) : s.Changes s' (s.footprint a.heap.values) := by
  cases hd with
  | param _ _ hp =>
    obtain ⟨⟨s₁, w⟩, hw, heq⟩ := Option.map_eq_some_iff.mp hp
    cases heq
    have hch := (Store.Fresh.clone hw).changes
    exact ⟨hch.size_le, fun c hc _ => hch.elements_eq c hc (Set.notMem_empty c)⟩
  | assign _ hv ht => exact (Store.Changes.assign hlt (fun d hd => Store.reach_eval hv hd) ht).1
  | _ => exact .refl s _

/-- A line keeps the regions of its activation apart from all others. -/
theorem Does.apart (h : s.Apart (a.regions ++ R)) (hd : a.Does limit s l (.signal a' s' .next)) :
    s'.Apart (a'.regions ++ R) := by
  cases hd with
  | pass => exact h
  | define => exact h
  | param _ _ hp =>
    -- the copy is a region of its own, behind the parameters pending already
    obtain ⟨⟨s₁, w⟩, hw, heq⟩ := Option.map_eq_some_iff.mp hp
    cases heq
    refine (h.fresh (Store.Fresh.clone hw)).perm ?_
    have hmove : (a.regions ++ [[w]] ++ R).Perm ([w] :: (a.regions ++ R)) := by
      rw [List.append_assoc]
      exact List.perm_middle
    simpa [regions, heap] using hmove.symm
  | @assign target x v h' _ _ hv ht =>
    have hlt : ∀ c ∈ s.footprint a.heap.values, c < s.cells.size :=
      h.exist a.heap.values (by simp [regions])
    obtain ⟨hch, hfoot⟩ := Store.Changes.assign hlt (fun d hd => Store.reach_eval hv hd) ht
    exact h.update hch hfoot

/-- A call hands the regions of its arguments over to the callee. -/
theorem Does.apart_enter {callee : Activation} (h : s.Apart (a.regions ++ R))
    (hd : a.Does limit s l (.enter a' callee)) :
    s.Apart (callee.regions ++ (a'.regions ++ R)) := by
  cases hd with
  | @call _ _ _ p _ args rest _ _ _ ht =>
    -- the arguments are the parameters in front
    have hsplit : a.params.values = args ++ rest.values := by
      unfold Params.take? at ht
      split at ht
      · cases ht
        exact (List.take_append_drop _ _).symm
      · cases ht
    have hargs : s.Apart (args.map (fun v => [v]) ++
        (a.heap.values :: (rest.values.map (fun v => [v]) ++ R))) := by
      refine h.perm ?_
      have hmove : (a.heap.values :: (args.map (fun v => [v]) ++
          (rest.values.map (fun v => [v]) ++ R))).Perm
          (args.map (fun v => [v]) ++
            (a.heap.values :: (rest.values.map (fun v => [v]) ++ R))) :=
        List.perm_middle.symm
      simpa [regions, hsplit] using hmove
    -- the callee begins with its arguments in its variables, and nothing else
    refine hargs.gather.shrink (Store.footprint_mono ?_)
    intro v hv
    rcases Heap.mem_values_bind hv with hv | hv
    · exact hv
    · simp [Heap.values, Heap.empty, Ordered.empty, Ordered.values] at hv

/-- The caller takes over what it gets back. -/
theorem apart_resume {c : Activation} {result : String} {v : Option Value}
    (h : s.Apart (a.regions ++ (c.regions ++ R)))
    (hv : ∀ w ∈ v, ∀ d, s.Reach w d → d ∈ s.footprint a.heap.values) :
    s.Apart ((Machine.resume c result v).regions ++ R) := by
  unfold Machine.resume
  split
  · rename_i w hw
    have hmem : w ∈ v := (Option.filter_eq_some_iff.mp hw).1
    -- the variables of the callee are joined to those of the caller, and give `w` only
    have hjoin : s.Apart ((a.heap.values ++ c.heap.values) ::
        (c.params.values.map (fun v => [v]) ++ R)) := by
      apply Store.Apart.merge
      refine h.sublist ?_
      simp [regions]
    refine hjoin.shrink ?_
    rw [Store.footprint_append]
    exact Store.footprint_heap_set Set.subset_union_right fun d hd => Or.inl (hv w hmem d hd)
  · exact h.sublist (List.sublist_append_right _ _)

end Activation

namespace Machine

/-- The regions of all activations. -/
def regions (m : Machine) : List (List Value) := m.activations.flatMap Activation.regions

/-- The regions of a run are apart. -/
def Separated (m : Machine) : Prop := m.store.Apart m.regions

variable {cfg : Config} {m m' : Machine}

theorem regions_eq (m : Machine) :
    m.regions = m.current.regions ++ m.callers.flatMap Activation.regions := rfl

/-- Every step keeps the regions apart. -/
theorem Separated.step (h : m.Separated) (hs : m.step cfg = .next m') : m'.Separated := by
  have happ : m.store.Apart (m.current.regions ++ m.callers.flatMap Activation.regions) := h
  -- the caller gets back a value that the callee's variables hold
  have hback : ∀ {c rest} (result : String) (v : Option Value), m.callers = c :: rest →
      (∀ w ∈ v, ∀ d, m.store.Reach w d → d ∈ m.store.footprint m.current.heap.values) →
      m.store.Apart ((resume c result v).regions ++ rest.flatMap Activation.regions) := by
    intro c rest result v hc hv
    rw [hc, List.flatMap_cons] at happ
    exact Activation.apart_resume happ hv
  cases takes_of_step hs with
  | fallOff _ hc => exact hback m.current.result none hc (by simp)
  | record _ _ =>
    unfold Activation.record
    split <;> exact happ
  | quiet _ he =>
    have hnext := Activation.Does.apart happ (does_of_effect he)
    exact hnext
  | jump => exact happ
  | enter _ he => exact Activation.Does.apart_enter happ (does_of_effect he)
  | @ret _ v _ _ _ he hc =>
    refine hback m.current.result (some v) hc ?_
    intro w hw d hd
    cases hw
    exact Activation.Does.reach_value (Or.inr (does_of_effect he)) hd
  | fault => exact happ
  | print => exact happ
  | @sinkFault _ _ c rest _ _ _ hc =>
    have hsub : m.store.Apart (c.regions ++ rest.flatMap Activation.regions) :=
      hback "" none hc (by simp)
    exact hsub

/-- The regions stay apart when a run stops and only the bottom of its stack is left. -/
theorem Separated.stop (h : m.Separated) (hstop : Stops cfg m m') : m'.Separated := by
  obtain ⟨hcur, hcallers, hstore⟩ := hstop.spec
  have hsub : ([m.bottom].flatMap Activation.regions).Sublist m.regions :=
    (List.singleton_sublist.mpr m.bottom_mem).flatMap _
  unfold Separated
  rw [hstore, regions_eq, hcur, hcallers]
  exact Store.Apart.sublist h hsub

/-- Inputs are numbers, and bring no arrays. -/
theorem Separated.launch (h : m.Separated) (inputs : List Number) (p : Program) :
    (m.launch inputs p).Separated := by
  refine Store.Apart.shrink h ?_
  rintro c ⟨v, hv, hc⟩
  rcases Heap.mem_values_bind hv with hv | hv
  · obtain ⟨x, -, rfl⟩ := List.mem_map.mp hv
    cases hc
  · exact ⟨v, hv, hc⟩

/-- The regions are apart at every moment of every session. -/
theorem separated_kept : Engine.Kept Separated where
  initial k := by
    refine ⟨?_, List.pairwise_singleton _ _⟩
    intro r hr c hc
    have hnil : r = [] := List.mem_singleton.mp hr
    rw [hnil] at hc
    simp at hc
  launch inputs p h := h.launch inputs p
  step h hs := h.step hs
  stop h hstop := h.stop hstop

/-! ## Isolation -/

/-- Activations share no arrays, and pending parameters share none with anything. -/
structure Isolated (m : Machine) : Prop where
  frames : m.activations.Pairwise fun a b =>
    Disjoint (a.footprint m.store) (b.footprint m.store)
  params_heap : ∀ a ∈ m.activations, ∀ v ∈ a.params.values,
    Disjoint (m.store.footprint [v]) (m.store.footprint a.heap.values)
  params : ∀ a ∈ m.activations, a.params.values.Pairwise fun v w =>
    Disjoint (m.store.footprint [v]) (m.store.footprint [w])

/-- Regions that are apart isolate the activations they belong to. -/
theorem Separated.isolated (h : m.Separated) : m.Isolated := by
  obtain ⟨hown, hother⟩ := List.pairwise_flatMap.mp h.disjoint
  refine ⟨?_, ?_, ?_⟩
  · refine hother.imp ?_
    intro a b hab
    rw [Set.disjoint_left]
    intro c hca hcb
    obtain ⟨r, hr, hc⟩ := Activation.mem_footprint.mp hca
    obtain ⟨r', hr', hc'⟩ := Activation.mem_footprint.mp hcb
    exact Set.disjoint_left.mp (hab r hr r' hr') hc hc'
  · intro a ha v hv
    have hhead := (List.pairwise_cons.mp (hown a ha)).1
    exact (hhead [v] (List.mem_map_of_mem hv)).symm
  · intro a ha
    have htail := (List.pairwise_cons.mp (hown a ha)).2
    rw [List.pairwise_map] at htail
    exact htail

/-! ## Frames -/

/-- The cells that the variables of the running activation hold exist. -/
theorem Separated.exist_heap (h : m.Separated) :
    ∀ c ∈ m.store.footprint m.current.heap.values, c < m.store.cells.size :=
  h.exist m.current.heap.values (by simp [regions_eq, Activation.regions])

/-- A step changes no array but those that the variables of the running activation hold. -/
theorem Separated.changes (h : m.Separated) (hs : m.step cfg = .next m') :
    m.store.Changes m'.store (m.store.footprint m.current.heap.values) := by
  cases takes_of_step hs with
  | quiet _ he => exact Activation.Does.changes h.exist_heap (does_of_effect he)
  | _ => exact .refl _ _

/-- A step leaves the arrays of every waiting activation as they are. -/
theorem Separated.elements_caller (h : m.Separated) (hs : m.step cfg = .next m')
    {a : Activation} (ha : a ∈ m.callers) {c : Nat} (hc : c ∈ a.footprint m.store) :
    m'.store.elements c = m.store.elements c := by
  obtain ⟨r, hr, hcr⟩ := Activation.mem_footprint.mp hc
  have hmem : r ∈ m.regions := by
    rw [regions_eq]
    exact List.mem_append_right _ (List.mem_flatMap_of_mem ha hr)
  -- only the cells of the running activation change, and those are not its callers'
  apply (h.changes hs).elements_eq c (h.exist r hmem c hcr)
  intro hcur
  have hdisj := (List.pairwise_cons.mp h.isolated.frames).1 a ha
  have hcur' : c ∈ m.current.footprint m.store :=
    Activation.mem_footprint.mpr ⟨_, by simp [Activation.regions], hcur⟩
  exact Set.disjoint_left.mp hdisj hcur' hc

end Machine

end AddressCode
