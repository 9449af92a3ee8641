import AddressCode.Store

/-!
# AddressCode.Params — pending parameters

The values handed over for the next call, first come first served.  A value is copied when it is
handed over, so that the callee cannot see what the caller does to an array later, nor the other
way round.
-/

namespace AddressCode

/-- The parameters that wait for a call, the first one in front. -/
structure Params where
  values : List Value
deriving Repr, DecidableEq

namespace Params

/-- No parameters. -/
def empty : Params := ⟨[]⟩

instance : Inhabited Params := ⟨empty⟩

/-- Hand over a copy of a value.  A value that contains itself has no copy. -/
def push? (ps : Params) (s : Store) (v : Value) : Option (Store × Params) :=
  (s.clone? v).map fun (s, v) => (s, ⟨ps.values ++ [v]⟩)

/-- The number of parameters. -/
def size (ps : Params) : Nat := ps.values.length

/-- Take `n` parameters one after the other from the front, behind those that have been taken. -/
def takeFront (taken : List Value) (ps : Params) : Nat → List Value × Params
  | 0 => (taken, ps)
  | n + 1 =>
    match ps.values with
    | [] => (taken, ps)
    | v :: rest => takeFront (taken ++ [v]) ⟨rest⟩ n

/-- Take the first `n` parameters, if there are that many.  What is handed back are the parameters
that were taken, if any, and those that are left. -/
def take (ps : Params) (n : Int) : Option (List Value) × Params :=
  if n < 0 ∨ (ps.size : Int) < n then (none, ps)
  else
    let (taken, left) := takeFront [] ps n.toNat
    (some taken, left)

/-- The first `n` parameters and those behind them, if there are that many. -/
def take? (ps : Params) (n : Int) : Option (List Value × Params) :=
  if 0 ≤ n ∧ n ≤ ps.values.length then
    some (ps.values.take n.toNat, ⟨ps.values.drop n.toNat⟩)
  else none

/-- Parameters are taken in their order, and those behind them are left. -/
theorem takeFront_eq (taken : List Value) {ps : Params} {n : Nat} (h : n ≤ ps.values.length) :
    takeFront taken ps n = (taken ++ ps.values.take n, ⟨ps.values.drop n⟩) := by
  induction n generalizing taken ps with
  | zero => simp [takeFront]
  | succ n ih =>
    obtain ⟨values⟩ := ps
    cases values with
    | nil => cases h
    | cons v rest =>
      simp only [takeFront]
      rw [ih (taken ++ [v]) (Nat.le_of_succ_le_succ h)]
      simp

/-- Either the parameters are split behind the first `n`, or nothing is taken and all of them are
left. -/
theorem take_eq (ps : Params) (n : Int) :
    ps.take n = ((ps.take? n).map (·.1), ((ps.take? n).map (·.2)).getD ps) := by
  unfold take take? size
  by_cases h : n < 0 ∨ (ps.values.length : Int) < n
  · rw [if_pos h, if_neg (by omega)]
    rfl
  · have hle : n.toNat ≤ ps.values.length := by omega
    rw [if_neg h, if_pos (by omega), takeFront_eq [] hle]
    rfl

end Params

end AddressCode
