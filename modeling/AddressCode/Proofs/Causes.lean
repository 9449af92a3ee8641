import AddressCode.Proofs.Effects

/-!
# AddressCode.Proofs.Causes — which faults come from where

Reading and writing values raises only faults of values, and an internal one only where an array
has no storage (`Expr.ofValues_of_eval`, `Target.ofValues_of_assign`).  So the faults of jumps,
calls and lines can be traced to the instruction that raises them; `Activation.endFunc_of_strayEnd`
does it for the end of a procedure outside of any, and `Activation.origin_of_fault` for all others.
-/

namespace AddressCode

/-! ## Faults of values -/

/-- Can a cause arise while a value is read or written?  The others belong to jumps, calls, and
lines as such. -/
def Cause.ofValue : Cause → Bool
  | .undefinedLabel _ | .undefinedProcedure _ | .wrongCount _ _ _ | .tooManyCalls _ _
  | .tooFewParams _ _ _ | .unrecognized _ | .strayEnd => false
  | _ => true

theorem Cause.ofValue_of_internal {c : Cause} (h : c.kind = .internalError) : c.ofValue = true := by
  cases c <;> simp_all [kind, ofValue]

/-- Some variable is an array that cannot be found in the store. -/
def Heap.LacksStorage (h : Heap) (s : Store) : Prop :=
  ∃ name cell, h.lookup? name = some (.array cell) ∧ cell.bind s.get? = none

/-- Some variable is a pointer to one that is not defined. -/
def Heap.Dangles (h : Heap) : Prop :=
  ∃ name next, h.lookup? name = some (.pointer next) ∧ h.has next = false

/-- A cause arises while values of a heap are read or written.  It is an internal one only if an
array has no storage, and a dangling reference only if a pointer dangles. -/
structure Cause.OfValues (h : Heap) (s : Store) (c : Cause) : Prop where
  ofValue : c.ofValue = true
  storage : c.kind = .internalError → h.LacksStorage s
  dangles : ∀ start, c = .dangling start → h.Dangles

theorem Value.ref?_eq_some_iff {v : Value} {name : String} :
    v.ref? = some name ↔ v = .pointer name := by
  cases v <;> simp [ref?]

section Values

variable {h : Heap} {s : Store} {c : Cause}

/-- A way that cannot be followed is broken, or it ends at a variable that is not defined.  If this
is the first one already, something else has to be known about it. -/
theorem Heap.ofValues_of_followFrom {start name : String} {depth : Nat}
    (hname : depth = 0 → h.has name = false → h.Dangles)
    (hf : h.followFrom start depth name = .error c) : c.OfValues h s := by
  induction depth generalizing name with
  | zero =>
    unfold followFrom at hf
    split at hf
    · cases hf
    · rename_i hhas
      cases hf
      exact ⟨rfl, by rintro ⟨⟩, fun _ _ => hname rfl (by simpa using hhas)⟩
  | succ depth ih =>
    unfold followFrom at hf
    split at hf
    · cases hf
      exact ⟨rfl, by rintro ⟨⟩, by rintro _ ⟨⟩⟩
    · rename_i v hv
      split at hf
      · cases hf
        exact ⟨rfl, by rintro ⟨⟩, by rintro _ ⟨⟩⟩
      · rename_i next hnext
        rw [Value.ref?_eq_some_iff.mp hnext] at hv
        exact ih (fun _ hhas => ⟨name, next, hv, hhas⟩) hf

theorem Heap.ofValues_of_deref {x : Operand} {depth : Nat} (hf : h.deref x depth = .error c) :
    c.OfValues h s := by
  unfold deref at hf
  split at hf
  · split at hf
    · rename_i hhas
      split at hf
      · cases hf
      · rename_i hfollow
        cases hf
        refine ofValues_of_followFrom (fun _ hnot => ?_) hfollow
        rw [hhas] at hnot
        cases hnot
    · cases hf
      exact ⟨rfl, by rintro ⟨⟩, by rintro _ ⟨⟩⟩
  · cases hf
    exact ⟨rfl, by rintro ⟨⟩, by rintro _ ⟨⟩⟩

theorem Value.ofValues_of_asIndex {v : Value} {x : Expr} (hf : v.asIndex x = .error c) :
    c.OfValues h s := by
  unfold asIndex at hf
  split at hf
  · cases hf
    exact ⟨rfl, by rintro ⟨⟩, by rintro _ ⟨⟩⟩
  · split at hf
    · cases hf
      exact ⟨rfl, by rintro ⟨⟩, by rintro _ ⟨⟩⟩
    · cases hf

theorem Store.ofValues_of_element {name : String} {cell : Option Nat} {i : Number} {x : Operand}
    (hcell : h.lookup? name = some (.array cell)) (hf : s.element cell i x = .error c) :
    c.OfValues h s := by
  unfold element at hf
  split at hf
  · rename_i hnone
    cases hf
    exact ⟨rfl, fun _ => ⟨name, cell, hcell, hnone⟩, by rintro _ ⟨⟩⟩
  · split at hf
    · cases hf
    · cases hf
      exact ⟨rfl, by rintro ⟨⟩, by rintro _ ⟨⟩⟩

mutual

theorem Operand.ofValues_of_eval {x : Operand} (hf : x.eval h s = .error c) :
    c.OfValues h s := by
  rcases x with _ | ⟨y, lexeme⟩ | name | ⟨name, index⟩
  · cases hf
    exact ⟨rfl, by rintro ⟨⟩, by rintro _ ⟨⟩⟩
  · cases hf
  · simp only [Operand.eval] at hf
    split at hf
    · cases hf
    · cases hf
      exact ⟨rfl, by rintro ⟨⟩, by rintro _ ⟨⟩⟩
  · simp only [Operand.eval] at hf
    split at hf
    · rename_i hcell
      split at hf
      · rename_i hindex
        cases hf
        exact Expr.ofValues_of_eval hindex
      · split at hf
        · rename_i hindex
          cases hf
          exact Value.ofValues_of_asIndex hindex
        · exact Store.ofValues_of_element hcell hf
    · cases hf
      exact ⟨rfl, by rintro ⟨⟩, by rintro _ ⟨⟩⟩

/-- A fault of an expression lies in its values. -/
theorem Expr.ofValues_of_eval {x : Expr} (hf : x.eval h s = .error c) : c.OfValues h s := by
  rcases x with x | ⟨op, x⟩ | ⟨op, x, y⟩
  · simp only [Expr.eval] at hf
    exact Operand.ofValues_of_eval hf
  · simp only [Expr.eval] at hf
    split at hf
    · cases hf
      exact ⟨rfl, by rintro ⟨⟩, by rintro _ ⟨⟩⟩
    · split at hf
      · split at hf
        · rename_i hx
          cases hf
          exact Operand.ofValues_of_eval hx
        · unfold Value.negate at hf
          split at hf
          · cases hf
          · cases hf
            exact ⟨rfl, by rintro ⟨⟩, by rintro _ ⟨⟩⟩
      · exact Heap.ofValues_of_deref hf
      · unfold Heap.addressOf at hf
        split at hf
        · split at hf
          · cases hf
          · cases hf
            exact ⟨rfl, by rintro ⟨⟩, by rintro _ ⟨⟩⟩
        · cases hf
          exact ⟨rfl, by rintro ⟨⟩, by rintro _ ⟨⟩⟩
      · cases hf
        exact ⟨rfl, by rintro ⟨⟩, by rintro _ ⟨⟩⟩
  · simp only [Expr.eval] at hf
    split at hf
    · cases hf
      exact ⟨rfl, by rintro ⟨⟩, by rintro _ ⟨⟩⟩
    · split at hf
      · rename_i hx
        cases hf
        exact Operand.ofValues_of_eval hx
      · split at hf
        · rename_i hy
          cases hf
          exact Operand.ofValues_of_eval hy
        · unfold BinaryOp.applyValues at hf
          split at hf
          · cases hf
          · split at hf
            · cases hf
            · cases hf
            · cases hf
              exact ⟨rfl, by rintro ⟨⟩, by rintro _ ⟨⟩⟩

end

/-- A fault of an assignment lies in its values. -/
theorem Target.ofValues_of_assign {t : Target} {v : Value} (hf : t.assign h s v = .error c) :
    c.OfValues h s := by
  rcases t with ⟨depth, name⟩ | ⟨name, index⟩
  · cases depth with
    | zero => cases hf
    | succ depth =>
      simp only [assign] at hf
      split at hf
      · cases hf
        exact ⟨rfl, by rintro ⟨⟩, by rintro _ ⟨⟩⟩
      · split at hf
        · cases hf
        · rename_i hfollow
          cases hf
          exact Heap.ofValues_of_followFrom (fun hzero => absurd hzero (Nat.succ_ne_zero depth))
            hfollow
  · simp only [assign] at hf
    split at hf
    · rename_i hindex
      cases hf
      unfold Expr.evalIndex at hindex
      split at hindex
      · rename_i heval
        cases hindex
        exact Expr.ofValues_of_eval heval
      · exact Value.ofValues_of_asIndex hindex
    · split at hf
      · cases hf
      · cases hf
      · cases hf
        exact ⟨rfl, by rintro ⟨⟩, by rintro _ ⟨⟩⟩

end Values

/-! ## Faults of instructions -/

/-- A fault of an instruction lies in its values, or it belongs to a jump, a call or the end of a
procedure; only the end of a procedure raises the fault of a stray one.  The induction follows the
conditions in front of the core. -/
theorem Activation.origin_of_fault {limit : Nat} {a a' : Activation} {s s' : Store} {c : Cause}
    {ins : Instr} (he : a.execute limit s ins = .signal a' s' (.fault c)) :
    c.OfValues a.heap s ∨ c.ofValue = false ∧ (c = .strayEnd → ins.core = .endFunc) := by
  have hvalue : ∀ {x : Expr} {c' : Cause}, x.eval a.heap s = .error c' →
      a.fault s c' = .signal a' s' (.fault c) → c.OfValues a.heap s := by
    intro x c' hx heq
    cases heq
    exact Expr.ofValues_of_eval hx
  induction ins with
  | noop => cases he
  | ifThen cond action ih =>
    simp only [execute] at he
    split at he
    · rename_i hx
      exact Or.inl (hvalue hx he)
    · split at he
      · exact ih he
      · cases he
  | print x | expression x =>
    simp only [execute] at he
    split at he
    · rename_i hx
      exact Or.inl (hvalue hx he)
    · cases he
  | ret x =>
    cases x with
    | none => cases he
    | some x =>
      simp only [execute] at he
      split at he
      · rename_i hx
        exact Or.inl (hvalue hx he)
      · cases he
  | goto label =>
    simp only [execute] at he
    split at he
    · cases he
      exact Or.inr ⟨rfl, by rintro ⟨⟩⟩
    · cases he
  | call proc count result =>
    simp only [execute, call_eq] at he
    split at he
    · cases he
      exact Or.inr ⟨rfl, by rintro ⟨⟩⟩
    · split at he
      · cases he
        exact Or.inr ⟨rfl, by rintro ⟨⟩⟩
      · split at he
        · cases he
          exact Or.inr ⟨rfl, by rintro ⟨⟩⟩
        · split at he
          · cases he
            exact Or.inr ⟨rfl, by rintro ⟨⟩⟩
          · cases he
  | param x =>
    simp only [execute] at he
    split at he
    · rename_i hx
      exact Or.inl (hvalue hx he)
    · split at he <;> cases he
  | beginFunc name arity => cases he
  | endFunc =>
    cases he
    exact Or.inr ⟨rfl, fun _ => rfl⟩
  | assign target x =>
    rw [execute_assign] at he
    split at he
    · rename_i hx
      exact Or.inl (hvalue hx he)
    · split at he
      · rename_i ht
        cases he
        exact Or.inl (Target.ofValues_of_assign ht)
      · cases he

/-- Only the end of a procedure raises the fault of a stray one. -/
theorem Activation.endFunc_of_strayEnd {limit : Nat} {a a' : Activation} {s s' : Store}
    {ins : Instr} (he : a.execute limit s ins = .signal a' s' (.fault .strayEnd)) :
    ins.core = .endFunc := by
  rcases origin_of_fault he with hvalue | ⟨-, hend⟩
  · cases hvalue.ofValue
  · exact hend rfl

end AddressCode
