namespace rart

/-- The operation a Rust execution stopped at. -/
inductive Panic where
  | index_out_of_bounds
  | subtract_with_overflow
  | unwrap_none
  | expect (message : String)
  | panic (message : String)
  | unreachable (message : String)
  /-- `assume_init` on a slot that holds no value. -/
  | uninit
  /-- An `Arc` whose cell is gone, which the types of the source rule out. -/
  | dangling
  /-- A recursion of the model was given too little fuel. -/
  | out_of_fuel
deriving DecidableEq, Repr

/-- What the modelled functions return: a value or a panic. -/
abbrev Result := Except Panic

/-- A byte string: what a key or a prefix holds. -/
abbrev Bytes := List UInt8

/-- A computation that returned goes on. -/
@[simp] theorem ok_bind {α β : Type} (a : α) (f : α → Result β) :
    (Except.ok a >>= f) = f a := rfl

/-- A panic ends what comes after it. -/
@[simp] theorem error_bind {α β : Type} (p : Panic) (f : α → Result β) :
    ((Except.error p : Result α) >>= f) = .error p := rfl

@[simp] theorem pure_eq_ok {α : Type} (a : α) : (pure a : Result α) = .ok a := rfl

@[simp] theorem map_ok {α β : Type} (f : α → β) (a : α) :
    f <$> (Except.ok a : Result α) = .ok (f a) := rfl

/-- A sequence returned when both of its parts did. -/
theorem bind_eq_ok_iff {α β : Type} {x : Result α} {f : α → Result β} {b : β} :
    (x >>= f) = .ok b ↔ ∃ a, x = .ok a ∧ f a = .ok b := by
  cases x <;> simp

section Checked

variable {α : Type}

/-- `xs[i]` -/
def index (xs : List α) (i : Nat) : Result α :=
  match xs[i]? with
  | some a => .ok a
  | none => .error .index_out_of_bounds

/-- `xs[i] = a` -/
def index_set (xs : List α) (i : Nat) (a : α) : Result (List α) :=
  if i < xs.length then .ok (xs.set i a) else .error .index_out_of_bounds

/-- `&xs[start..]` -/
def slice_from (xs : List α) (start : Nat) : Result (List α) :=
  if start ≤ xs.length then .ok (xs.drop start) else .error .index_out_of_bounds

/-- `&xs[..stop]` -/
def slice_to (xs : List α) (stop : Nat) : Result (List α) :=
  if stop ≤ xs.length then .ok (xs.take stop) else .error .index_out_of_bounds

/-- `a - b` on `usize`. -/
def usize_sub (a b : Nat) : Result Nat :=
  if b ≤ a then .ok (a - b) else .error .subtract_with_overflow

/-- `Option::unwrap` -/
def unwrap : Option α → Result α
  | some a => .ok a
  | none => .error .unwrap_none

/-- `Option::expect` -/
def expect (o : Option α) (message : String) : Result α :=
  match o with
  | some a => .ok a
  | none => .error (.expect message)

/-- The outcome of an operation on an `Arc`. -/
def arc : Option α → Result α
  | some a => .ok a
  | none => .error .dangling

/-- A read within the bounds returns. -/
theorem index_eq_ok {xs : List α} {i : Nat} {a : α} (h : xs[i]? = some a) :
    index xs i = .ok a := by simp [index, h]

/-- The element behind a prefix. -/
@[simp] theorem index_append_length (xs : List α) (a : α) (ys : List α) :
    index (xs ++ a :: ys) xs.length = .ok a := index_eq_ok (by simp)

/-- A write within the bounds returns. -/
theorem index_set_eq_ok {xs : List α} {i : Nat} (h : i < xs.length) (a : α) :
    index_set xs i a = .ok (xs.set i a) := by simp [index_set, h]

/-- Writing the element behind a prefix. -/
theorem index_set_append_cons (xs : List α) (a b : α) (ys : List α) :
    index_set (xs ++ a :: ys) xs.length b = .ok (xs ++ b :: ys) := by
  rw [index_set_eq_ok (by simp), List.set_append_right _ _ (Nat.le_refl _), Nat.sub_self]
  rfl

/-- Writing back what was there. -/
theorem set_of_getElem? {xs : List α} {i : Nat} {a : α} (h : xs[i]? = some a) : xs.set i a = xs := by
  obtain ⟨hlt, rfl⟩ := List.getElem?_eq_some_iff.1 h
  exact List.set_getElem_self hlt

/-- A slice within the bounds returns. -/
theorem slice_from_eq_ok {xs : List α} {start : Nat} (h : start ≤ xs.length) :
    slice_from xs start = .ok (xs.drop start) := by simp [slice_from, h]

/-- A slice within the bounds returns. -/
theorem slice_to_eq_ok {xs : List α} {stop : Nat} (h : stop ≤ xs.length) :
    slice_to xs stop = .ok (xs.take stop) := by simp [slice_to, h]

/-- A subtraction that stays above zero returns. -/
theorem usize_sub_eq_ok {a b : Nat} (h : b ≤ a) : usize_sub a b = .ok (a - b) := by
  simp [usize_sub, h]

@[simp] theorem unwrap_some (a : α) : unwrap (some a) = .ok a := rfl

@[simp] theorem arc_some (a : α) : arc (some a) = .ok a := rfl

/-- A reference that could be followed leads to a node. -/
theorem arc_eq_ok {o : Option α} {a : α} (h : arc o = .ok a) : o = some a := by
  cases o with
  | none => cases h
  | some b =>
    cases h
    rfl

@[simp] theorem expect_some (a : α) (message : String) :
    expect (some a) message = .ok a := rfl

end Checked

end rart
