import KLambda.Value

/-!
Questions about the shape of a form: what heads it, what its operands are once nested lists with
the same head are spliced in, and whether a name occurs free in it.
-/
namespace KLambda.Value

/-- Is this a list headed by the symbol `keyword`? -/
def isForm (keyword : String) : Value → Bool
  | .cons _ (.symbol s) _ => s == keyword
  | _ => false

/-- The elements after the first. -/
def operands (v : Value) : List Value := v.heads.tail

/-- The number of cells and atoms in a value. -/
def size : Value → Nat
  | .cons _ h t => h.size + t.size + 1
  | _ => 1

theorem size_pos (v : Value) : 0 < v.size := by
  cases v <;> simp [size]

def sizes : List Value → Nat
  | [] => 0
  | v :: vs => v.size + sizes vs

@[simp]
theorem sizes_nil : sizes [] = 0 := rfl

@[simp]
theorem sizes_cons (v : Value) (vs : List Value) : sizes (v :: vs) = v.size + sizes vs := rfl

@[simp]
theorem sizes_append (us vs : List Value) : sizes (us ++ vs) = sizes us + sizes vs := by
  induction us with
  | nil => simp
  | cons u us ih => simp [ih, Nat.add_assoc]

theorem sizes_heads_lt (v : Value) : sizes v.heads < v.size := by
  fun_induction heads v with
  | case1 _ h t ih => simp only [sizes_cons, size]; omega
  | case2 v => exact v.size_pos

theorem sizes_tail_le (vs : List Value) : sizes vs.tail ≤ sizes vs := by
  cases vs <;> simp

theorem sizes_operands_lt (v : Value) : sizes v.operands < v.size :=
  Nat.lt_of_le_of_lt (sizes_tail_le _) v.sizes_heads_lt

theorem size_le_sizes {v : Value} {vs : List Value} (h : v ∈ vs) : v.size ≤ sizes vs := by
  induction vs with
  | nil => simp at h
  | cons w ws ih =>
    rcases List.mem_cons.1 h with rfl | h
    · simp
    · have := ih h; simp; omega

theorem size_lt_of_mem_heads {u v : Value} (h : u ∈ v.heads) : u.size < v.size :=
  Nat.lt_of_le_of_lt (size_le_sizes h) v.sizes_heads_lt

/-- Works through the forms that are left: one headed by `keyword` is replaced by its operands,
any other is kept. -/
def splice (keyword : String) : List Value → List Value
  | [] => []
  | v :: rest =>
    if v.isForm keyword then splice keyword (v.operands ++ rest) else v :: splice keyword rest
termination_by vs => sizes vs
decreasing_by
  · have := v.sizes_operands_lt; simp; omega
  · have := v.size_pos; simp; omega

/-- The operands of a form with nested forms of the same keyword spliced in:
`(do a (do b c) d)` has the operands `a`, `b`, `c` and `d`. -/
def flatten (keyword : String) (form : Value) : List Value := splice keyword form.operands

/-- A form that binds names in its last part. -/
inductive Binding where
  | letIn (var : String) (value body : Value)
  | lambda (var : String) (body : Value)
  | defun (params : List Value) (body : Value)

/-- Recognises a binding form by its keyword and its number of parts. -/
def binding? : List Value → Option Binding
  | [.symbol k, .symbol x, a, b] =>
    if k == "let" then some (.letIn x a b)
    else if k == "defun" then some (.defun a.heads b) else none
  | [.symbol k, _, a, b] => if k == "defun" then some (.defun a.heads b) else none
  | [.symbol k, .symbol x, b] => if k == "lambda" then some (.lambda x b) else none
  | _ => none

def isSymbol (name : String) : Value → Bool
  | .symbol s => s == name
  | _ => false

theorem mem_of_binding?_letIn {vs : List Value} {x : String} {a b : Value}
    (h : binding? vs = some (.letIn x a b)) : a ∈ vs ∧ b ∈ vs := by
  unfold binding? at h
  grind

theorem mem_of_binding?_lambda {vs : List Value} {x : String} {b : Value}
    (h : binding? vs = some (.lambda x b)) : b ∈ vs := by
  unfold binding? at h
  grind

theorem mem_of_binding?_defun {vs ps : List Value} {b : Value}
    (h : binding? vs = some (.defun ps b)) : b ∈ vs := by
  unfold binding? at h
  grind

/-- Does `name` occur free? A binding form that rebinds it hides it in its body, but the value of
a `let` belongs to the outer scope. -/
def mentions (name : String) (v : Value) : Bool :=
  match v with
  | .symbol s => s == name
  | .cons mark h t =>
    let parts := (Value.cons mark h t).heads
    match _h : binding? parts with
    | some (.letIn x a b) => mentions name a || (x != name && mentions name b)
    | some (.lambda x b) => x != name && mentions name b
    | some (.defun ps b) => !ps.any (isSymbol name) && mentions name b
    | none => parts.attach.any fun p => mentions name p.1
  | _ => false
termination_by v.size
decreasing_by
  · exact size_lt_of_mem_heads (mem_of_binding?_letIn _h).1
  · exact size_lt_of_mem_heads (mem_of_binding?_letIn _h).2
  · exact size_lt_of_mem_heads (mem_of_binding?_lambda _h)
  · exact size_lt_of_mem_heads (mem_of_binding?_defun _h)
  · exact size_lt_of_mem_heads p.2

end KLambda.Value
