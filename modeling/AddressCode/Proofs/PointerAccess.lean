import AddressCode.Proofs.Binding
import AddressCode.Proofs.Causes

/-!
# AddressCode.Proofs.PointerAccess — reading and writing through pointers

A read and a write through the same chain of pointers are checked apart from each other.  They agree
nevertheless, since both follow the chain by `Heap.followFrom`.  `Heap.Leads` names the variables
that are dereferenced on the way, and `followFrom_eq_ok_iff` says that the chain can be followed if
and only if there is such a way to a defined variable.

A chain may run in circles, and then the variable at its end is one of those dereferenced on the
way: the write replaces a link of the chain that it went through.  If the variable is none of them,
the way stays as it is (`Leads.set`), and the read and the write are the two sides of a lens: what
was written is read back, a second write makes the first one void, and writing what was read changes
nothing (`read_write_agree`).
-/

namespace AddressCode

/-! ## Variables -/

namespace Ordered

variable {κ α : Type} [Ord κ] [Std.ReflCmp (compare : κ → κ → Ordering)]

/-- The last of two values written at a key counts. -/
theorem insert_insert (m : Ordered κ α) (k : κ) (v w : α) :
    (m.insert k v).insert k w = m.insert k w := by
  obtain ⟨es⟩ := m
  simp only [insert, mk.injEq]
  induction es with
  | nil => simp [insertEntry]
  | cons e rest ih =>
    simp only [insertEntry]
    cases he : compare k e.1 with
    | lt => simp [insertEntry]
    | eq => simp [insertEntry]
    | gt => simp [insertEntry, he, ih]

end Ordered

namespace Heap

variable {h : Heap} {s : Store} {p q t name start : String} {names : List String}
  {d : Nat} {u v : Value}

theorem set_set (h : Heap) (t : String) (v w : Value) : (h.set t v).set t w = h.set t w := by
  unfold set
  split
  · rfl
  · rw [Ordered.insert_insert]

theorem lookup?_set_self (h : Heap) (ht : t ≠ "") (hv : v.isDefined = true) :
    (h.set t v).lookup? t = some v := by
  rw [lookup?, tag?_set_self h v ht]
  exact Option.filter_eq_some_iff.mpr ⟨rfl, hv⟩

theorem lookup?_set_of_ne (h : Heap) (v : Value) (hname : name ≠ t) :
    (h.set t v).lookup? name = h.lookup? name := by
  rw [lookup?, tag?_set_of_ne h v hname, lookup?]

/-- No heap that is made by setting variables has one with the empty name. -/
theorem has_empty_set (h : Heap) (t : String) (v : Value) : (h.set t v).has "" = h.has "" := by
  by_cases ht : t = ""
  · rw [set, if_pos ht]
  · rw [has, lookup?_set_of_ne h v (Ne.symm ht), has]

theorem has_iff : h.has name = true ↔ ∃ v, h.lookup? name = some v :=
  Option.isSome_iff_exists

theorem tag?_of_lookup? (hu : h.lookup? name = some u) : h.tag? name = some u :=
  (Option.filter_eq_some_iff.mp hu).1

/-- Writing back a value leaves every variable as it is. -/
theorem tag?_set_same (hu : h.lookup? t = some u) (name : String) :
    (h.set t u).tag? name = h.tag? name := by
  by_cases hname : name = t
  · rw [hname, tag?_of_lookup? hu]
    by_cases ht : t = ""
    · rw [set, if_pos ht]
      exact tag?_of_lookup? hu
    · exact tag?_set_self h u ht
  · exact tag?_set_of_ne h u hname

/-! ## Ways through pointers -/

/-- Following pointers from the variable `name`, the variables `names` are dereferenced one after
the other, and the last of them names the variable `target`. -/
inductive Leads (h : Heap) : String → List String → String → Prop where
  | nil (name : String) : Leads h name [] name
  | cons {name next target : String} {names : List String}
      (hp : h.lookup? name = some (.pointer next)) (hrest : Leads h next names target) :
      Leads h name (name :: names) target

/-- A chain of pointers can be followed if and only if there is a way of its length to a defined
variable. -/
theorem followFrom_eq_ok_iff :
    h.followFrom start d p = .ok t ↔
      ∃ names, h.Leads p names t ∧ names.length = d ∧ h.has t = true := by
  induction d generalizing p with
  | zero =>
    unfold followFrom
    constructor
    · intro hf
      split at hf
      · rename_i hp
        cases hf
        exact ⟨[], .nil _, rfl, hp⟩
      · cases hf
    · rintro ⟨names, hway, hlen, ht⟩
      obtain rfl := List.eq_nil_of_length_eq_zero hlen
      cases hway
      rw [if_pos ht]
  | succ d ih =>
    constructor
    · intro hf
      unfold followFrom at hf
      split at hf
      · cases hf
      · rename_i v hv
        split at hf
        · cases hf
        · rename_i q hq
          rw [Value.ref?_eq_some_iff.mp hq] at hv
          obtain ⟨names, hway, hlen, ht⟩ := ih.mp hf
          exact ⟨p :: names, .cons hv hway, by rw [List.length_cons, hlen], ht⟩
    · rintro ⟨names, hway, hlen, ht⟩
      cases hway with
      | nil => cases hlen
      | @cons _ q _ names hp hrest =>
        have hrest' := ih.mpr ⟨names, hrest, Nat.succ.inj hlen, ht⟩
        simpa only [followFrom, hp, Value.ref?] using hrest'

/-- Ways of the same length are the same. -/
theorem Leads.unique {names' : List String} (hway : h.Leads p names t)
    (hway' : h.Leads p names' q) (hlen : names.length = names'.length) :
    names = names' ∧ t = q := by
  induction hway generalizing names' with
  | nil =>
    cases hway' with
    | nil => exact ⟨rfl, rfl⟩
    | cons => cases hlen
  | cons hp _ ih =>
    cases hway' with
    | nil => cases hlen
    | cons hp' hrest' =>
      rw [hp] at hp'
      cases hp'
      obtain ⟨hnames, htarget⟩ := ih hrest' (Nat.succ.inj hlen)
      exact ⟨by rw [hnames], htarget⟩

/-- The first variable of a way through at least one pointer is defined. -/
theorem Leads.has_start (hway : h.Leads p names t) (hlen : names.length ≠ 0) : h.has p = true := by
  cases hway with
  | nil => exact absurd rfl hlen
  | cons hp => exact has_iff.mpr ⟨_, hp⟩

/-- A way does not change when a variable is written that is not dereferenced on it. -/
theorem Leads.set (hway : h.Leads p names q) (ht : t ∉ names) : (h.set t v).Leads p names q := by
  induction hway with
  | nil name => exact .nil name
  | @cons name _ _ _ hp _ ih =>
    obtain ⟨hname, hrest⟩ := not_or.mp (List.mem_cons.not.mp ht)
    refine .cons ?_ (ih hrest)
    rw [lookup?_set_of_ne h v (Ne.symm hname)]
    exact hp

/-! ## Reads and writes -/

variable {op : String}

/-- There are two operators that read through pointers. -/
theorem depth_of_deref (hop : UnaryOp.ofText? op = some (.deref d)) : d = 1 ∨ d = 2 := by
  unfold UnaryOp.ofText? at hop
  split at hop <;> cases hop
  · exact Or.inl rfl
  · exact Or.inr rfl

/-- A read succeeds with the value at the end of the way. -/
theorem read_eq_ok_iff (hop : UnaryOp.ofText? op = some (.deref d)) :
    (Expr.unary op (.variable p)).eval h s = .ok u ↔
      ∃ names t, h.Leads p names t ∧ names.length = d ∧ h.lookup? t = some u := by
  have heval : (Expr.unary op (.variable p)).eval h s = h.deref (.variable p) d := by
    simp [Expr.eval, Operand.isMissing, hop]
  rw [heval]
  simp only [deref]
  constructor
  · intro hread
    split at hread
    · split at hread
      · rename_i t hfollow
        obtain ⟨names, hway, hlen, ht⟩ := followFrom_eq_ok_iff.mp hfollow
        obtain ⟨w, hw⟩ := has_iff.mp ht
        rw [hw] at hread
        cases hread
        exact ⟨names, t, hway, hlen, hw⟩
      · cases hread
    · cases hread
  · rintro ⟨names, t, hway, hlen, hu⟩
    have hpos : names.length ≠ 0 := by
      rcases depth_of_deref hop with rfl | rfl <;> omega
    have hfollow : h.follow p d = .ok t :=
      followFrom_eq_ok_iff.mpr ⟨names, hway, hlen, has_iff.mpr ⟨u, hu⟩⟩
    rw [if_pos (hway.has_start hpos)]
    simp only [hfollow, hu, Option.getD_some]

/-- A write succeeds if there is a way to a defined variable, and sets this variable. -/
theorem write_eq_ok_iff (hop : UnaryOp.ofText? op = some (.deref d)) {h' : Heap} {s' : Store} :
    (Target.variable d p).assign h s v = .ok (h', s') ↔
      ∃ names t, h.Leads p names t ∧ names.length = d ∧ h.has t = true ∧
        h' = h.set t v ∧ s' = s := by
  have hassign : (Target.variable d p).assign h s v =
      (h.follow p d).map fun target => (h.set target v, s) := by
    rcases depth_of_deref hop with rfl | rfl <;> simp only [Target.assign] <;>
      cases h.follow p _ <;> rfl
  rw [hassign]
  constructor
  · intro hwrite
    cases hfollow : h.follow p d with
    | error c =>
      rw [hfollow] at hwrite
      cases hwrite
    | ok t =>
      rw [hfollow] at hwrite
      obtain ⟨names, hway, hlen, ht⟩ := followFrom_eq_ok_iff.mp hfollow
      cases hwrite
      exact ⟨names, t, hway, hlen, ht, rfl, rfl⟩
  · rintro ⟨names, t, hway, hlen, ht, rfl, rfl⟩
    have hfollow : h.follow p d = .ok t := followFrom_eq_ok_iff.mpr ⟨names, hway, hlen, ht⟩
    rw [hfollow]
    rfl

theorem read_succeeds_iff (hop : UnaryOp.ofText? op = some (.deref d)) :
    (∃ u, (Expr.unary op (.variable p)).eval h s = .ok u) ↔
      ∃ names t, h.Leads p names t ∧ names.length = d ∧ h.has t = true := by
  simp only [read_eq_ok_iff hop]
  constructor
  · rintro ⟨u, names, t, hway, hlen, hu⟩
    exact ⟨names, t, hway, hlen, has_iff.mpr ⟨u, hu⟩⟩
  · rintro ⟨names, t, hway, hlen, ht⟩
    obtain ⟨u, hu⟩ := has_iff.mp ht
    exact ⟨u, names, t, hway, hlen, hu⟩

theorem write_succeeds_iff (hop : UnaryOp.ofText? op = some (.deref d)) :
    (∃ h' s', (Target.variable d p).assign h s v = .ok (h', s')) ↔
      ∃ names t, h.Leads p names t ∧ names.length = d ∧ h.has t = true := by
  simp only [write_eq_ok_iff hop]
  constructor
  · rintro ⟨h', s', names, t, hway, hlen, ht, -⟩
    exact ⟨names, t, hway, hlen, ht⟩
  · rintro ⟨names, t, hway, hlen, ht⟩
    exact ⟨_, _, names, t, hway, hlen, ht, rfl, rfl⟩

/-- A write through more pointers than two faults, whatever the heap. -/
theorem write_tooDeep (hd : maxPointers < d) :
    (Target.variable d p).assign h s v = .error (.tooDeep (.variable d p)) := by
  cases d with
  | zero => cases hd
  | succ d => simp only [Target.assign, if_pos hd]

/-- Reading and writing through one or two pointers agree: they succeed together, and refer to the
same variable, which is defined.  The write gives this variable its new value, and changes no other
variable and no array.  If the variable is not one of those dereferenced on the way, a value that is
written (and not undefined) is read back, and a second write has the effect of the second value
alone.  Writing back what was read changes no variable.  A write through three or more pointers
faults, and leaves the activation and the store as they are. -/
theorem read_write_agree (hempty : h.has "" = false) (s : Store) (p : String) (v : Value)
    (hop : UnaryOp.ofText? op = some (.deref d)) :
    ((∃ u, (Expr.unary op (.variable p)).eval h s = .ok u) ↔
      ∃ h' s', (Target.variable d p).assign h s v = .ok (h', s')) ∧
    (∀ u, (Expr.unary op (.variable p)).eval h s = .ok u →
      ∃ names t, h.Leads p names t ∧ names.length = d ∧ h.lookup? t = some u ∧
        (Target.variable d p).assign h s v = .ok (h.set t v, s) ∧
        (h.set t v).tag? t = some v ∧ (∀ name ≠ t, (h.set t v).tag? name = h.tag? name) ∧
        (t ∉ names → v.isDefined = true →
          (Expr.unary op (.variable p)).eval (h.set t v) s = .ok v ∧
          ∀ w, (Target.variable d p).assign (h.set t v) s w = .ok (h.set t w, s)) ∧
        (Target.variable d p).assign h s u = .ok (h.set t u, s) ∧
        ∀ name, (h.set t u).tag? name = h.tag? name) ∧
    ∀ n, 3 ≤ n → (Target.variable n p).assign h s v = .error (.tooDeep (.variable n p)) ∧
      (Cause.tooDeep (.variable n p)).kind = .invalidPointerReference ∧
      ∀ (a : Activation) (limit : Nat) (x : Expr), x.eval a.heap s = .ok v →
        a.execute limit s (.assign (.variable n p) x) = a.fault s (.tooDeep (.variable n p)) := by
  refine ⟨(read_succeeds_iff hop).trans (write_succeeds_iff hop).symm, ?_, ?_⟩
  · intro u hread
    obtain ⟨names, t, hway, hlen, hu⟩ := (read_eq_ok_iff hop).mp hread
    have ht : h.has t = true := has_iff.mpr ⟨u, hu⟩
    have hname : t ≠ "" := by
      rintro rfl
      rw [hempty] at ht
      cases ht
    have hwrite : ∀ w, (Target.variable d p).assign h s w = .ok (h.set t w, s) :=
      fun w => (write_eq_ok_iff hop).mpr ⟨names, t, hway, hlen, ht, rfl, rfl⟩
    refine ⟨names, t, hway, hlen, hu, hwrite v, tag?_set_self h v hname, ?_, ?_, hwrite u,
      tag?_set_same hu⟩
    · exact fun name hne => tag?_set_of_ne h v hne
    · -- the write replaces no link of the chain, so the same way leads to `t` again
      intro hnot hv
      have hway' : (h.set t v).Leads p names t := hway.set hnot
      have hv' : (h.set t v).lookup? t = some v := lookup?_set_self h hname hv
      refine ⟨(read_eq_ok_iff hop).mpr ⟨names, t, hway', hlen, hv'⟩, fun w => ?_⟩
      have hagain := (write_eq_ok_iff hop (v := w) (s := s)).mpr
        ⟨names, t, hway', hlen, has_iff.mpr ⟨v, hv'⟩, rfl, rfl⟩
      rwa [set_set] at hagain
  · intro n hn
    have hdeep : ∀ h : Heap,
        (Target.variable n p).assign h s v = .error (.tooDeep (.variable n p)) :=
      fun h => write_tooDeep hn
    refine ⟨hdeep h, rfl, ?_⟩
    intro a limit x hx
    simp only [Activation.execute_assign, hx, hdeep a.heap]

/-- A heap with a number in `x`, a pointer to it in `p`, and a pointer to that one in `q`. -/
def twoPointers : Heap :=
  ((empty.set "x" (.scalar .zero)).set "p" (.pointer "x")).set "q" (.pointer "p")

/-- What is written through both pointers is read back, since neither of them is written. -/
theorem read_write_agree_twoPointers :
    (Target.variable 2 "q").assign twoPointers .empty (.scalar .one) =
        .ok (twoPointers.set "x" (.scalar .one), .empty) ∧
      (Expr.unary "**" (.variable "q")).eval (twoPointers.set "x" (.scalar .one)) .empty =
        .ok (.scalar .one) := by
  have hempty : twoPointers.has "" = false := by
    simp only [twoPointers, has_empty_set]
    rfl
  have hread : (Expr.unary "**" (.variable "q")).eval twoPointers .empty = .ok (.scalar .zero) := by
    decide +kernel
  have hway : twoPointers.Leads "q" ["q", "p"] "x" :=
    .cons (by decide +kernel) (.cons (by decide +kernel) (.nil "x"))
  have hop : UnaryOp.ofText? "**" = some (.deref 2) := rfl
  obtain ⟨-, hagree, -⟩ := read_write_agree hempty .empty "q" (.scalar .one) hop
  obtain ⟨names, t, hway', hlen, -, hwrite, -, -, hback, -⟩ := hagree _ hread
  obtain ⟨rfl, rfl⟩ := hway'.unique hway hlen
  exact ⟨hwrite, (hback (by decide) rfl).1⟩

/-- In a circle the write replaces the pointer that it went through. -/
example : ∃ h, (Target.variable 1 "p").assign (empty.set "p" (.pointer "p")) .empty (.scalar .one) =
      .ok (h, .empty) ∧
    (Expr.unary "*" (.variable "p")).eval h .empty = .error (.notAPointer "p" "p" .scalar) :=
  ⟨empty.set "p" (.scalar .one), by decide +kernel, by decide +kernel⟩

end Heap

end AddressCode
