import KLambda.Proofs.Equivalent
import KLambda.Proofs.HeadPosition
import KLambda.Proofs.Scoped

/-!
Flattening. The operands of a chain of `and`, `or` or `do` that are chains of the same keyword are
spliced in before anything is compiled. As long as they would have been chains on their own, the
code does what it would have done without.
-/
namespace KLambda

/-- The forms that are flattened. -/
inductive Chain where
  | all
  | any
  | sequence

namespace Chain

def keyword : Chain → String
  | .all => "and"
  | .any => "or"
  | .sequence => "do"

/-- The number of operands that the special form takes at least. -/
def least : Chain → Nat
  | .all | .any => 2
  | .sequence => 1

def construct : Chain → List Value → Construct
  | .all => .junction true
  | .any => .junction false
  | .sequence => .sequence

/-- What a chain compiles to if every operand is compiled on its own. -/
def unflattened (k : Chain) (defined : String → Bool) (s : Scope) (v : Value) :
    Except Error Code :=
  match v.items? with
  | some (head :: operands) =>
    ((k.construct operands).compiled defined s head operands).map (Code.finish s)
  | _ => .error (.invalidForm ("improper list " ++ v.text))

/-- A form that is a chain on its own: a proper list with as many operands as it takes, and if it
is a `do`, one with anything in it. -/
def Whole (k : Chain) (v : Value) : Prop :=
  ∃ operands, v.items? = some (.symbol k.keyword :: operands) ∧ k.least ≤ operands.length ∧
    (k = .sequence → Value.splice k.keyword operands ≠ [])

theorem ofList_eq {k : Chain} {operands : List Value} (h : k.least ≤ operands.length) :
    Construct.ofList (.symbol k.keyword) operands =
      k.construct (Value.splice k.keyword operands) := by
  cases k with
  | all => exact if_pos h
  | any => exact if_pos h
  | sequence =>
    cases operands with
    | nil => simp [least] at h
    | cons v vs => rfl

end Chain

/-- The list of these values, in cells that are not told apart. -/
def Value.list (vs : List Value) : Value := vs.foldr (.cons 0) .empty

theorem Value.operands_of_items? {v head : Value} {operands : List Value}
    (h : v.items? = some (head :: operands)) : v.operands = operands := by
  rw [Value.operands, Value.heads_eq_of_items? h, List.tail_cons]

theorem Value.splice_append (keyword : String) (us vs : List Value) :
    Value.splice keyword (us ++ vs) = Value.splice keyword us ++ Value.splice keyword vs := by
  fun_induction Value.splice keyword us with
  | case1 => rfl
  | case2 v rest hv ih => rw [List.cons_append, Value.splice, if_pos hv, ← List.append_assoc, ih]
  | case3 v rest hv ih => rw [List.cons_append, Value.splice, if_neg hv, ih, List.cons_append]

section

variable {defined : String → Bool} {s : Scope} {k : Chain} {v : Value} {vs operands : List Value}

theorem Value.splice_cons_form {keyword : String}
    (h : v.items? = some (.symbol keyword :: operands)) :
    Value.splice keyword (v :: vs) = Value.splice keyword operands ++ Value.splice keyword vs := by
  obtain ⟨mark, t, rfl⟩ := Value.exists_cons_of_items? h
  rw [Value.splice, if_pos (by simp [Value.isForm]), Value.operands_of_items? h,
    Value.splice_append]

/-- A chain is flattened, then compiled. -/
theorem compile_chain (h : v.items? = some (.symbol k.keyword :: operands))
    (hn : k.least ≤ operands.length) :
    compile defined s v = ((k.construct (Value.splice k.keyword operands)).compiled defined s
      (.symbol k.keyword) operands).map (Code.finish s) := by
  rw [compile_of_items? h, Chain.ofList_eq hn]

theorem compileAll_append (us vs : List Value) :
    compileAll defined s (us ++ vs) = (do
      let codes ← compileAll defined s us
      let codes' ← compileAll defined s vs
      return codes ++ codes') := by
  induction us with
  | nil =>
    rw [List.nil_append, compileAll]
    cases compileAll defined s vs <;> rfl
  | cons u us ih =>
    rw [List.cons_append, compileAll, compileAll, ih]
    cases compile defined s u with
    | error e => rfl
    | ok c =>
      cases compileAll defined s us with
      | error e => rfl
      | ok cs => cases compileAll defined s vs <;> rfl

theorem compileSequence_cons (h : vs ≠ []) :
    compileSequence defined s (v :: vs) = (do
      let effect ← compile defined s.inHead.asStatement v
      let (effects, last) ← compileSequence defined s vs
      return (effect :: effects, last)) := by
  cases vs with
  | nil => exact (h rfl).elim
  | cons w vs => rw [compileSequence]

theorem compileSequence_append (us : List Value) (h : vs ≠ []) :
    compileSequence defined s (us ++ vs) = (do
      let codes ← compileAll defined s.inHead.asStatement us
      let (effects, last) ← compileSequence defined s vs
      return (codes ++ effects, last)) := by
  induction us with
  | nil =>
    rw [List.nil_append, compileAll]
    cases compileSequence defined s vs <;> rfl
  | cons u us ih =>
    rw [List.cons_append, compileSequence_cons (by simp [h]), compileAll, ih]
    cases compile defined s.inHead.asStatement u with
    | error e => rfl
    | ok c =>
      cases compileAll defined s.inHead.asStatement us with
      | error e => rfl
      | ok cs => cases compileSequence defined s vs <;> rfl

end

section

variable {defined : String → Bool} {s : Scope} {all : Bool} {k : Chain}

theorem compiled_junction (head : Value) (operands forms : List Value) :
    ((Construct.junction all forms).compiled defined s head operands).map (Code.finish s) =
      (compileAll defined s.inHead forms).map (Code.chain all) := by
  have hf : ∀ cs, Code.finish s (.chain all cs) = .chain all cs := by
    intro cs
    cases all <;> simp [Code.chain, Code.finish, Code.isPure]
  rw [Construct.compiled]
  cases compileAll defined s.inHead forms with
  | error e => rfl
  | ok cs => exact congrArg Except.ok (hf cs)

theorem agree_junction (hk : k.construct = Construct.junction all) (operands : List Value)
    (hw : ∀ v ∈ operands, v.isForm k.keyword = true → k.Whole v) :
    Agree (fun cs ds => (Code.chain all cs).Equivalent (.chain all ds))
      (compileAll defined s.inHead (Value.splice k.keyword operands))
      (compileAll defined s.inHead operands) := by
  induction operands with
  | nil =>
    rw [Value.splice]
    exact .refl (fun cs => .refl _) _
  | cons v rest ih =>
    have ih := ih fun u hu => hw u (List.mem_cons_of_mem v hu)
    rw [compileAll]
    by_cases hv : v.isForm k.keyword = true
    · obtain ⟨inner, hi, hn, -⟩ := hw v List.mem_cons_self hv
      rw [Value.splice_cons_form hi, compileAll_append, compile_chain hi hn, hk, compiled_junction,
        Scope.inHead_inHead]
      cases compileAll defined s.inHead (Value.splice k.keyword inner) with
      | error e => rfl
      | ok cs =>
        refine ih.bind fun ds ds' h => ?_
        exact (Code.Equivalent.chain_nested cs ds).symm.trans (.chain_cons (.refl _) h)
    · rw [Value.splice, if_neg hv, compileAll]
      refine .bind_same _ fun c => ?_
      exact ih.bind fun ds ds' h => .chain_cons (.refl c) h

end

/-- Code of which nothing is kept but its effects is no more than a constant if it has none. -/
def Code.Tidy (c : Code) : Prop := c.isPure = true → ∃ l, c = .const l

namespace Code

variable {s : Scope} {c : Code} {effects : List Code}

theorem finish_finish (s : Scope) (c : Code) : finish s (finish s c) = finish s c := by
  unfold finish
  split <;> simp_all

theorem tidy_of_finish (hs : s.statement = true) (h : finish s c = c) : c.Tidy := by
  intro hp
  rw [finish, hs, hp] at h
  exact ⟨.empty, h.symm⟩

/-- Leaving out the pure effects changes nothing, if they are constants. -/
theorem sequence_equivalent (h : ∀ e ∈ effects, e.Tidy) (last : Code) :
    (sequence effects last).Equivalent (.seq effects last) := by
  have hf : (Code.seq (effects.filter (!·.isPure)) last).Equivalent (.seq effects last) := by
    induction effects with
    | nil => exact .refl _
    | cons e effects ih =>
      have ih := ih fun d hd => h d (List.mem_cons_of_mem e hd)
      cases hp : e.isPure with
      | false =>
        rw [List.filter_cons_of_pos (by simp [hp])]
        exact .seq_cons (.refl e) ih
      | true =>
        obtain ⟨l, rfl⟩ := h e List.mem_cons_self hp
        rw [List.filter_cons_of_neg (by simp [hp])]
        exact ih.trans (.symm (.seq_const l effects last))
  unfold sequence
  split
  · rename_i he
    rw [he] at hf
    exact (Equivalent.seq_nil last).symm.trans hf
  · exact hf

theorem finish_sequence {last : Code} (h : finish s last = last) :
    finish s (sequence effects last) = sequence effects last := by
  unfold sequence
  split
  · exact h
  · simp [finish, isPure]

end Code

section

variable {defined : String → Bool} {s : Scope} {v : Value} {vs : List Value}

theorem compile_finished (s : Scope) (v : Value) :
    Yields (fun c => Code.finish s c = c) (fun _ => True) (compile defined s v) := by
  unfold compile
  split
  case h_5 =>
    split
    · cases compileList defined s _ _ with
      | error e => trivial
      | ok c => exact Code.finish_finish s c
    · trivial
  case h_6 => trivial
  all_goals exact Code.finish_finish s _

theorem compile_tidy (s : Scope) (v : Value) (hs : s.statement = true) :
    Yields Code.Tidy (fun _ => True) (compile defined s v) :=
  (compile_finished s v).imp fun _ h => Code.tidy_of_finish hs h

/-- Effects that are tidy, and a last code that is finished. -/
def TidySequence (s : Scope) (p : List Code × Code) : Prop :=
  (∀ e ∈ p.1, e.Tidy) ∧ Code.finish s p.2 = p.2

theorem compileSequence_tidy (s : Scope) (vs : List Value) :
    Yields (TidySequence s) (fun _ => True) (compileSequence defined s vs) := by
  induction vs with
  | nil =>
    rw [compileSequence]
    trivial
  | cons v vs ih =>
    by_cases hvs : vs = []
    · subst hvs
      rw [compileSequence]
      exact (compile_finished s v).bind fun c hc => ⟨by simp, hc⟩
    · rw [compileSequence_cons hvs]
      refine (compile_tidy s.inHead.asStatement v rfl).bind fun e he => ih.bind fun p hp => ?_
      exact ⟨List.forall_mem_cons.2 ⟨he, hp.1⟩, hp.2⟩

/-- Among statements, the last form of a sequence is compiled like the others. -/
theorem compileAll_statement (hv : vs ≠ []) :
    compileAll defined s.inHead.asStatement vs =
      (compileSequence defined s.inHead.asStatement vs).map fun p => p.1 ++ [p.2] := by
  induction vs with
  | nil => exact (hv rfl).elim
  | cons v vs ih =>
    rw [compileAll]
    by_cases hvs : vs = []
    · subst hvs
      rw [compileAll, compileSequence]
      cases compile defined s.inHead.asStatement v <;> rfl
    · rw [compileSequence_cons hvs, ih hvs,
        show s.inHead.asStatement.inHead.asStatement = s.inHead.asStatement from rfl]
      cases compile defined s.inHead.asStatement v with
      | error e => rfl
      | ok c => cases compileSequence defined s.inHead.asStatement vs <;> rfl

theorem compiled_sequence (head : Value) (operands forms : List Value) :
    ((Construct.sequence forms).compiled defined s head operands).map (Code.finish s) =
      (compileSequence defined s forms).map fun p => .sequence p.1 p.2 := by
  have ht : Yields (TidySequence s) (fun _ => True) (compileSequence defined s forms) :=
    compileSequence_tidy s forms
  rw [Construct.compiled]
  cases hc : compileSequence defined s forms with
  | error e => rfl
  | ok p =>
    rw [hc] at ht
    exact congrArg Except.ok (Code.finish_sequence ht.2)

theorem compile_do {inner : List Value} (hi : v.items? = some (.symbol "do" :: inner))
    (hn : 1 ≤ inner.length) :
    compile defined s v =
      (compileSequence defined s (Value.splice "do" inner)).map fun p => .sequence p.1 p.2 := by
  rw [compile_chain (k := .sequence) hi hn]
  exact compiled_sequence _ _ _

theorem Chain.Whole.sequence (h : Chain.sequence.Whole v) :
    ∃ inner, v.items? = some (.symbol "do" :: inner) ∧ 1 ≤ inner.length ∧
      Value.splice "do" inner ≠ [] := by
  obtain ⟨inner, hi, hn, hne⟩ := h
  exact ⟨inner, hi, hn, hne rfl⟩

theorem splice_ne_nil (hw : ∀ v ∈ vs, v.isForm "do" = true → Chain.sequence.Whole v)
    (hv : vs ≠ []) : Value.splice "do" vs ≠ [] := by
  cases vs with
  | nil => exact (hv rfl).elim
  | cons v vs =>
    by_cases hf : v.isForm "do" = true
    · obtain ⟨inner, hi, -, hn⟩ := (hw v List.mem_cons_self hf).sequence
      rw [Value.splice_cons_form hi]
      exact fun h => hn (List.append_eq_nil_iff.1 h).1
    · rw [Value.splice, if_neg hf]
      exact List.cons_ne_nil _ _

theorem agree_sequence (operands : List Value)
    (hw : ∀ v ∈ operands, v.isForm "do" = true → Chain.sequence.Whole v) :
    Agree (fun p q => (Code.seq p.1 p.2).Equivalent (.seq q.1 q.2))
      (compileSequence defined s (Value.splice "do" operands))
      (compileSequence defined s operands) := by
  induction operands with
  | nil =>
    rw [Value.splice]
    exact .refl (fun p => .refl _) _
  | cons v rest ih =>
    have hw' : ∀ u ∈ rest, u.isForm "do" = true → Chain.sequence.Whole u :=
      fun u hu => hw u (List.mem_cons_of_mem v hu)
    have ih := ih hw'
    by_cases hv : v.isForm "do" = true
    · obtain ⟨inner, hi, hn, hne⟩ := (hw v List.mem_cons_self hv).sequence
      rw [Value.splice_cons_form hi]
      by_cases hr : rest = []
      · subst hr
        have ht : Yields (TidySequence s) (fun _ => True)
            (compileSequence defined s (Value.splice "do" inner)) := compileSequence_tidy s _
        rw [compileSequence, compile_do hi hn, Value.splice, List.append_nil]
        cases hc : compileSequence defined s (Value.splice "do" inner) with
        | error e => rfl
        | ok p =>
          rw [hc] at ht
          exact (Code.sequence_equivalent ht.1 p.2).symm.trans (.symm (.seq_nil _))
      · have ht : Yields (TidySequence s.inHead.asStatement) (fun _ => True)
            (compileSequence defined s.inHead.asStatement (Value.splice "do" inner)) :=
          compileSequence_tidy s.inHead.asStatement _
        rw [compileSequence_cons hr, compileSequence_append _ (splice_ne_nil hw' hr),
          compileAll_statement hne, compile_do hi hn]
        cases hc : compileSequence defined s.inHead.asStatement (Value.splice "do" inner) with
        | error e => rfl
        | ok p =>
          rw [hc] at ht
          refine ih.bind fun q q' h => ?_
          have nested : (Code.seq (p.1 ++ [p.2] ++ q.1) q.2).Equivalent
              (.seq (.sequence p.1 p.2 :: q'.1) q'.2) := by
            rw [List.append_assoc, List.singleton_append]
            exact (Code.Equivalent.seq_nested p.1 q.1 p.2 q.2).symm.trans
              (.seq_cons (Code.sequence_equivalent ht.1 p.2).symm h)
          exact nested
    · rw [Value.splice, if_neg hv]
      by_cases hr : rest = []
      · subst hr
        rw [Value.splice]
        exact .refl (fun p => .refl _) _
      · rw [compileSequence_cons hr, compileSequence_cons (splice_ne_nil hw' hr)]
        refine .bind_same _ fun c => ?_
        exact ih.bind fun p q h => .seq_cons (.refl c) h

end

theorem agree_compiled {k : Chain} {defined : String → Bool} {s : Scope} {head : Value}
    {operands : List Value} (hw : ∀ v ∈ operands, v.isForm k.keyword = true → k.Whole v) :
    Agree Code.Equivalent
      (((k.construct (Value.splice k.keyword operands)).compiled defined s head operands).map
        (Code.finish s))
      (((k.construct operands).compiled defined s head operands).map (Code.finish s)) := by
  cases k with
  | all | any =>
    simp only [Chain.construct, compiled_junction]
    exact (agree_junction rfl operands hw).map fun _ _ h => h
  | sequence =>
    simp only [Chain.construct, compiled_sequence]
    refine ((agree_sequence operands hw).and (compileSequence_tidy s _)
      (compileSequence_tidy s _)).map ?_
    rintro p q ⟨hp, hq, h⟩
    exact (Code.sequence_equivalent hp.1 p.2).trans
      (h.trans (Code.sequence_equivalent hq.1 q.2).symm)

/-- Compiling a chain comes to the same as compiling each of its operands on its own, as long as
those that are spliced in are chains on their own: there is the same error, or code that does the
same in every state. -/
theorem compile_agrees_unflattened {k : Chain} {defined : String → Bool} {s : Scope} {v : Value}
    (hv : v.isForm k.keyword = true) (hn : k.least ≤ v.operands.length)
    (hw : ∀ u ∈ v.operands, u.isForm k.keyword = true → k.Whole u) :
    Agree Code.Equivalent (compile defined s v) (k.unflattened defined s v) := by
  obtain ⟨mark, t, rfl⟩ : ∃ mark t, v = .cons mark (.symbol k.keyword) t := by
    unfold Value.isForm at hv
    split at hv
    · exact ⟨_, _, by rw [eq_of_beq hv]⟩
    · cases hv
  cases hi : (Value.cons mark (.symbol k.keyword) t).items? with
  | none =>
    rw [compile_improper (by simp [hi]), Chain.unflattened, hi]
    rfl
  | some items =>
    have hh := Value.heads_eq_of_items? hi
    rw [Value.heads] at hh
    subst hh
    rw [Value.operands_of_items? hi] at hn hw
    rw [compile_chain hi hn, Chain.unflattened, hi]
    exact agree_compiled hw

/-- `(do (f) (do (g) (h)))` has the nested `do` spliced in. -/
theorem compile_agrees_unflattened_do :
    Agree Code.Equivalent
      (compile (fun _ => false) .toplevel
        (.cons 0 (.symbol "do") (.cons 1 (.cons 2 (.symbol "f") .empty) (.cons 3
          (.cons 4 (.symbol "do") (.cons 5 (.cons 6 (.symbol "g") .empty) (.cons 7
            (.cons 8 (.symbol "h") .empty) .empty))) .empty))))
      (Chain.sequence.unflattened (fun _ => false) .toplevel
        (.cons 0 (.symbol "do") (.cons 1 (.cons 2 (.symbol "f") .empty) (.cons 3
          (.cons 4 (.symbol "do") (.cons 5 (.cons 6 (.symbol "g") .empty) (.cons 7
            (.cons 8 (.symbol "h") .empty) .empty))) .empty)))) := by
  refine compile_agrees_unflattened rfl (by decide) fun u hu hf => ?_
  obtain rfl | rfl : u = .cons 2 (.symbol "f") .empty ∨ u = .cons 4 (.symbol "do")
      (.cons 5 (.cons 6 (.symbol "g") .empty) (.cons 7 (.cons 8 (.symbol "h") .empty) .empty)) := by
    simpa [Value.operands, Value.heads] using hu
  · cases hf
  · refine ⟨_, rfl, by decide, fun _ => ?_⟩
    simp [Value.splice, Value.heads, Value.isForm, Chain.keyword]

/-- It does not come to the same without the condition: `(do)` is malformed on its own, and so is
`(do a (do))` if its operands are compiled one by one, but spliced in it leaves no trace. -/
theorem not_compile_agrees_unflattened :
    ¬ ∀ (k : Chain) (defined : String → Bool) (s : Scope) (v : Value),
      v.isForm k.keyword = true → k.least ≤ v.operands.length →
        Agree Code.Equivalent (compile defined s v) (k.unflattened defined s v) := by
  intro h
  have hd : ∀ s, compile (fun _ => false) s (.cons 3 (.symbol "do") .empty) =
      .error (.malformed "do" .someOperand) := by
    intro s
    rw [compile_of_items? rfl]
    rfl
  have hc : compile (fun _ => false) .toplevel (.cons 0 (.symbol "do") (.cons 1 (.symbol "a")
      (.cons 2 (.cons 3 (.symbol "do") .empty) .empty))) = .ok (.const (.symbol "a")) := by
    rw [compile_do rfl (by decide)]
    simp [Value.splice, Value.isForm, Value.operands, Value.heads, compileSequence, compile,
      Code.finish, Code.sequence, Scope.toplevel, Scope.isLocal, Except.map, bind, Except.bind,
      pure, Except.pure]
  have hu : Chain.sequence.unflattened (fun _ => false) .toplevel (.cons 0 (.symbol "do")
      (.cons 1 (.symbol "a") (.cons 2 (.cons 3 (.symbol "do") .empty) .empty))) =
      .error (.malformed "do" .someOperand) := by
    simp [Chain.unflattened, Chain.construct, Construct.compiled, Value.items?, Value.ending,
      Value.heads, compileSequence, compile, hd, Except.map, bind, Except.bind]
  have ha := h .sequence (fun _ => false) .toplevel (.cons 0 (.symbol "do") (.cons 1 (.symbol "a")
    (.cons 2 (.cons 3 (.symbol "do") .empty) .empty))) rfl (by decide)
  rw [hc, hu] at ha
  exact ha

end KLambda
