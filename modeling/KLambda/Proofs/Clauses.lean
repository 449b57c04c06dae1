import KLambda.Proofs.Elision

/-!
The clauses of a `cond`. A `cond` is a chain of `if`s: it compiles to code that cannot be told from
that of the nested form, though it is cut off at a literal `true` where the nested form goes on. The
tests are tried in order until one does not come to `false`, and what this one decides is what the
whole comes to.
-/
namespace KLambda

open Machine

/-- The `if`s that a list of clauses stands for, with the empty `cond` in the end. -/
inductive Value.Nested : List Value → Value → Prop
  | nil {v : Value} (h : v.items? = some [.symbol "cond"]) : Nested [] v
  | cons {clause test consequent rest v : Value} {clauses : List Value}
      (hc : clause.clause? = some (test, consequent)) (hr : Nested clauses rest)
      (h : v.items? = some [.symbol "if", test, consequent, rest]) : Nested (clause :: clauses) v

namespace Machine

/-- The tests of these clauses come to `false`, one after the other. -/
inductive Refused (host : Host) (mode : Mode) (l : Locals) :
    List (Code × Code) → World → List Effect → World → Prop
  | nil (w : World) : Refused host mode l [] w [] w
  | cons {test : Code} {w w₁ w₂ : World} {es fs : List Effect} {rest : List (Code × Code)}
      (consequent : Code)
      (h : Ends host mode ⟨.eval test l, [.settle []], w⟩ es (.ok (.done (.bool false)), w₁))
      (hr : Refused host mode l rest w₁ fs w₂) :
      Refused host mode l ((test, consequent) :: rest) w (es ++ fs) w₂

/-- What can be seen of a `cond` whose first clause decides it, or that has no clauses left. -/
inductive Decided (host : Host) (mode : Mode) (l : Locals) (default : Option Code) :
    List (Code × Code) → World → List Effect → Option (Outcome Step × World) → Prop
  | failed {test consequent : Code} {rest : List (Code × Code)} {w : World} {es : List Effect}
      {o : Option (Outcome Step × World)}
      (h : Observed host mode ⟨.eval test l, [.settle []], w⟩ es o)
      (ho : ∀ r ∈ o, ∃ e, r.1 = .error e) :
      Decided host mode l default ((test, consequent) :: rest) w es o
  | mistyped {test consequent : Code} {rest : List (Code × Code)} {w w₁ : World}
      {es : List Effect} {v : Value} {o : Option (Outcome Step × World)}
      (h : Ends host mode ⟨.eval test l, [.settle []], w⟩ es (.ok (.done v), w₁))
      (hv : v.toBool? = none) (ho : ∀ r ∈ o, r = (.error (.typeMismatch "boolean" v.text), w₁)) :
      Decided host mode l default ((test, consequent) :: rest) w es o
  | taken {test consequent : Code} {rest : List (Code × Code)} {w w₁ : World}
      {es fs : List Effect} {o : Option (Outcome Step × World)}
      (h : Ends host mode ⟨.eval test l, [.settle []], w⟩ es (.ok (.done (.bool true)), w₁))
      (hc : Observed host mode ⟨.eval consequent l, [.settle []], w₁⟩ fs o) :
      Decided host mode l default ((test, consequent) :: rest) w (es ++ fs) o
  | default {consequent : Code} {w : World} {es : List Effect}
      {o : Option (Outcome Step × World)} (hd : default = some consequent)
      (hc : Observed host mode ⟨.eval consequent l, [.settle []], w⟩ es o) :
      Decided host mode l default [] w es o
  | exhausted {w : World} {o : Option (Outcome Step × World)} (hd : default = none)
      (ho : ∀ r ∈ o, r = (.error .noConditionTrue, w)) : Decided host mode l default [] w [] o

variable {host : Host} {mode : Mode} {l : Locals} {S : List Frame} {w : World} {es : List Effect}
  {o : Option (Outcome Step × World)} {test c d : Code} {rest clauses : List (Code × Code)}
  {default : Option Code} {v : Value} {e : Error}

theorem sameRuns_cond_cons : SameRuns host mode ⟨.eval (.cond ((test, c) :: rest) default) l, S, w⟩
    ⟨.eval test l, .cond c rest default l :: S, w⟩ := sameRuns_move rfl rfl rfl

theorem sameRuns_cond_default : SameRuns host mode ⟨.eval (.cond [] (some c)) l, S, w⟩
    ⟨.eval c l, S, w⟩ := sameRuns_move rfl rfl rfl

theorem sameRuns_cond_exhausted : SameRuns host mode ⟨.eval (.cond [] none) l, S, w⟩
    ⟨.raise .noConditionTrue, S, w⟩ := sameRuns_move rfl rfl rfl

theorem sameRuns_branch : SameRuns host mode ⟨.eval (.branch test c d) l, S, w⟩
    ⟨.eval test l, .branch c d l :: S, w⟩ := sameRuns_move rfl rfl rfl

theorem toBool_cases (v : Value) : (∃ b, v = .bool b) ∨
    v.toBool? = none ∧ v.toBool = .error (.typeMismatch "boolean" v.text) := by
  cases hv : v.toBool? with
  | none => exact Or.inr ⟨rfl, Value.toBool_eq_error hv⟩
  | some b => exact Or.inl ⟨b, Value.toBool?_eq_some_iff.1 hv⟩

theorem toBool_bool (b : Bool) : (Value.bool b).toBool = .ok b := Value.toBool_eq_ok_iff.2 rfl

/-- A `cond` with a clause is decided by it, or refuses it and goes on with the rest. -/
theorem observed_cond_cons_iff :
    Observed host mode ⟨.eval (.cond ((test, c) :: rest) default) l, [.settle []], w⟩ es o ↔
      Decided host mode l default ((test, c) :: rest) w es o ∨
      ∃ es₁ es₂ w₁, es = es₁ ++ es₂ ∧
        Ends host mode ⟨.eval test l, [.settle []], w⟩ es₁ (.ok (.done (.bool false)), w₁) ∧
        Observed host mode ⟨.eval (.cond rest default) l, [.settle []], w₁⟩ es₂ o := by
  have decides : Decides (.cond c rest default l) c (.cond rest default) l :=
    .clause c rest default l
  have raised : ∀ e w, Ends host mode ⟨.raise e, [.cond c rest default l, .settle []], w⟩ []
      (.error e, w) :=
    fun e w => ((sameRuns_decides_raise decides).1 _ _).2 (ends_raised (fun _ _ => rfl) e w)
  have mistyped : ∀ v w e, v.toBool = .error e → Ends host mode
      ⟨.give (.done v), [.cond c rest default l, .settle []], w⟩ [] (.error e, w) :=
    fun v w e hv => ((sameRuns_decides_mistyped decides hv).1 _ _).2
      (ends_raised (fun _ _ => rfl) e w)
  rw [sameRuns_cond_cons.observed_iff]
  refine (observed_onto_iff (s := ⟨.eval test l, [], w⟩) decides.performs raised).trans ⟨?_, ?_⟩
  · rintro (⟨ho, h⟩ | ⟨v, w₁, es₁, es₂, rfl, h, hr⟩)
    · exact Or.inl (.failed h ho)
    · rcases toBool_cases v with ⟨b, rfl⟩ | ⟨hn, hv⟩
      · cases b with
        | true =>
          rw [(sameRuns_decides_next decides (toBool_bool true)).observed_iff] at hr
          exact Or.inl (.taken h hr)
        | false =>
          rw [(sameRuns_decides_next decides (toBool_bool false)).observed_iff] at hr
          exact Or.inr ⟨es₁, es₂, w₁, rfl, h, hr⟩
      · obtain ⟨rfl, ho⟩ := (mistyped v w₁ _ hv).eq_of_observed hr
        rw [List.append_nil]
        exact Or.inl (.mistyped h hn ho)
  · rintro (h | ⟨es₁, es₂, w₁, rfl, h, hr⟩)
    · cases h with
      | failed h ho => exact Or.inl ⟨ho, h⟩
      | @mistyped _ _ _ _ w₁ _ v _ h hn ho =>
        exact Or.inr ⟨v, w₁, es, [], (List.append_nil es).symm, h,
          (mistyped v w₁ _ (Value.toBool_eq_error hn)).observed ho⟩
      | taken h hc =>
        exact Or.inr ⟨_, _, _, _, rfl, h,
          (sameRuns_decides_next decides (toBool_bool true)).observed_iff.2 hc⟩
    · exact Or.inr ⟨_, _, _, _, rfl, h,
        (sameRuns_decides_next decides (toBool_bool false)).observed_iff.2 hr⟩

theorem observed_cond_nil_iff :
    Observed host mode ⟨.eval (.cond [] default) l, [.settle []], w⟩ es o ↔
      Decided host mode l default [] w es o := by
  cases default with
  | none =>
    have hr : Ends host mode ⟨.raise .noConditionTrue, [.settle []], w⟩ []
        (.error .noConditionTrue, w) := ends_raised (fun _ _ => rfl) _ w
    rw [sameRuns_cond_exhausted.observed_iff]
    constructor
    · intro h
      obtain ⟨rfl, ho⟩ := hr.eq_of_observed h
      exact .exhausted rfl ho
    · rintro (_ | _ | _ | ⟨hd, -⟩ | ⟨-, ho⟩)
      · cases hd
      · exact hr.observed ho
  | some c =>
    rw [sameRuns_cond_default.observed_iff]
    constructor
    · exact .default rfl
    · rintro (_ | _ | _ | ⟨hd, hc⟩ | ⟨hd, -⟩)
      · cases hd
        exact hc
      · cases hd

/-- What can be seen of a `cond`: some of its clauses are refused, and the next one decides, or when
none is left, the default. -/
theorem observed_cond_iff :
    Observed host mode ⟨.eval (.cond clauses default) l, [.settle []], w⟩ es o ↔
      ∃ front rest es₁ es₂ w₁, clauses = front ++ rest ∧ es = es₁ ++ es₂ ∧
        Refused host mode l front w es₁ w₁ ∧ Decided host mode l default rest w₁ es₂ o := by
  induction clauses generalizing w es with
  | nil =>
    rw [observed_cond_nil_iff]
    constructor
    · exact fun h => ⟨[], [], [], es, w, rfl, rfl, .nil w, h⟩
    · rintro ⟨front, rest, es₁, es₂, w₁, hc, rfl, hr, h⟩
      obtain ⟨rfl, rfl⟩ := List.append_eq_nil_iff.1 hc.symm
      cases hr
      exact h
  | cons clause clauses ih =>
    obtain ⟨test, c⟩ := clause
    rw [observed_cond_cons_iff]
    constructor
    · rintro (h | ⟨es₁, es₂, w₁, rfl, h, hr⟩)
      · exact ⟨[], _, [], es, w, rfl, rfl, .nil w, h⟩
      · obtain ⟨front, rest, fs, gs, w₂, rfl, rfl, hf, hd⟩ := ih.1 hr
        exact ⟨(test, c) :: front, rest, es₁ ++ fs, gs, w₂, rfl, by simp, .cons c h hf, hd⟩
    · rintro ⟨front, rest, es₁, es₂, w₁, hc, rfl, hr, h⟩
      cases hr with
      | nil =>
        obtain rfl : (test, c) :: clauses = rest := hc
        exact Or.inl h
      | @cons test' w w₂ w₁ fs gs front c' ht hr =>
        obtain ⟨⟨rfl, rfl⟩, rfl⟩ : (test = test' ∧ c = c') ∧ clauses = front ++ rest := by
          simpa using hc
        exact Or.inr ⟨fs, gs ++ es₂, w₂, by simp, ht,
          ih.2 ⟨front, rest, gs, es₂, w₁, rfl, rfl, hr, h⟩⟩

end Machine

/-- A clause whose test is the symbol `true`, which is a constant unless it is bound. -/
def Value.isCatchAll (clause : Value) : Bool := clause.clause?.any (·.1.isSymbol "true")

/-- The test and the consequent of a clause, compiled. -/
def CompiledClause (defined : String → Bool) (s : Scope) (clause : Value) (p : Code × Code) :
    Prop :=
  ∃ test consequent, clause.clause? = some (test, consequent) ∧
    compile defined s.inHead test = .ok p.1 ∧ compile defined s consequent = .ok p.2

section

variable {defined : String → Bool} {s : Scope} {v clause test consequent yes no : Value}
  {clauses front rest : List Value} {cs : List (Code × Code)} {default : Option Code} {code : Code}

theorem compile_cond (h : v.items? = some (.symbol "cond" :: clauses)) :
    compile defined s v = (compileClauses defined s clauses).map fun p => .cond p.1 p.2 := by
  rw [compile_of_items? h,
    show Construct.ofList (.symbol "cond") clauses = .cond clauses from rfl, Construct.compiled]
  cases compileClauses defined s clauses with
  | error e => rfl
  | ok p => simp [bind, Except.bind, pure, Except.pure, Except.map, Code.finish, Code.isPure]

theorem compile_if (h : v.items? = some [.symbol "if", test, yes, no]) :
    compile defined s v = (do
      let test ← compile defined s.inHead test
      let yes ← compile defined s yes
      let no ← compile defined s no
      return .branch test yes no) := by
  rw [compile_of_items? h,
    show Construct.ofList (.symbol "if") [test, yes, no] = .branch test yes no from rfl,
    Construct.compiled]
  cases compile defined s.inHead test with
  | error e => rfl
  | ok ct =>
    cases compile defined s yes with
    | error e => rfl
    | ok cy =>
      cases compile defined s no with
      | error e => rfl
      | ok cn => simp [bind, Except.bind, pure, Except.pure, Except.map, Code.finish, Code.isPure]

theorem compile_if_ok (h : v.items? = some [.symbol "if", test, yes, no])
    (hc : compile defined s v = .ok code) : ∃ ct cy cn, compile defined s.inHead test = .ok ct ∧
      compile defined s yes = .ok cy ∧ compile defined s no = .ok cn ∧ code = .branch ct cy cn := by
  rw [compile_if h] at hc
  obtain ⟨ct, ht, hc⟩ := bind_eq_ok_iff.1 hc
  obtain ⟨cy, hy, hc⟩ := bind_eq_ok_iff.1 hc
  obtain ⟨cn, hn, hc⟩ := bind_eq_ok_iff.1 hc
  exact ⟨ct, cy, cn, ht, hy, hn, (Except.ok.inj hc).symm⟩

theorem not_default (hd : clause.isCatchAll = false ∨ s.isLocal "true" = true)
    (hp : clause.clause? = some (test, consequent)) :
    (test.isSymbol "true" && !s.isLocal "true") = false := by
  rcases hd with hd | hd
  · have ht : test.isSymbol "true" = false := by simpa [Value.isCatchAll, hp] using hd
    simp [ht]
  · simp [hd]

/-- A clause that is compiled comes first, unless it is the default. -/
theorem compileClauses_cons_ok (hd : clause.isCatchAll = false ∨ s.isLocal "true" = true)
    (h : compileClauses defined s (clause :: clauses) = .ok (cs, default)) :
    ∃ p cs', CompiledClause defined s clause p ∧
      compileClauses defined s clauses = .ok (cs', default) ∧ cs = p :: cs' := by
  cases hp : clause.clause? with
  | none => simp [compileClauses_cons_none hp] at h
  | some p =>
    obtain ⟨test, consequent⟩ := p
    rw [compileClauses_cons_some hp, not_default hd hp] at h
    obtain ⟨ct, ht, h⟩ := bind_eq_ok_iff.1 h
    obtain ⟨cq, hq, h⟩ := bind_eq_ok_iff.1 h
    obtain ⟨⟨cs', d⟩, hr, h⟩ := bind_eq_ok_iff.1 h
    cases h
    exact ⟨(ct, cq), cs', ⟨test, consequent, hp, ht, hq⟩, hr, rfl⟩

theorem compileClauses_cons_eq {p : Code × Code}
    (hd : clause.isCatchAll = false ∨ s.isLocal "true" = true)
    (hp : CompiledClause defined s clause p) : compileClauses defined s (clause :: clauses) =
      (compileClauses defined s clauses).map fun r => (p :: r.1, r.2) := by
  obtain ⟨test, consequent, hc, ht, hq⟩ := hp
  rw [compileClauses_cons_some hc, not_default hd hc, ht, hq]
  cases compileClauses defined s clauses <;> rfl

/-- Clauses in front of others are compiled one by one, whatever the others are. -/
theorem compileClauses_append
    (hf : ∀ clause ∈ front, clause.isCatchAll = false ∨ s.isLocal "true" = true)
    (h : compileClauses defined s (front ++ rest) = .ok (cs, default)) :
    ∃ cs₁ cs₂, cs = cs₁ ++ cs₂ ∧ List.Forall₂ (CompiledClause defined s) front cs₁ ∧
      compileClauses defined s rest = .ok (cs₂, default) ∧
      ∀ rest', compileClauses defined s (front ++ rest') =
        (compileClauses defined s rest').map fun r => (cs₁ ++ r.1, r.2) := by
  induction front generalizing cs with
  | nil =>
    refine ⟨[], cs, rfl, .nil, h, fun rest' => ?_⟩
    rw [List.nil_append]
    cases compileClauses defined s rest' <;> rfl
  | cons clause front ih =>
    obtain ⟨hd, hf⟩ := List.forall_mem_cons.1 hf
    obtain ⟨p, cs', hp, hr, rfl⟩ := compileClauses_cons_ok hd h
    obtain ⟨cs₁, cs₂, rfl, hs, hr, happend⟩ := ih hf hr
    refine ⟨p :: cs₁, cs₂, rfl, .cons hp hs, hr, fun rest' => ?_⟩
    rw [List.cons_append, compileClauses_cons_eq hd hp, happend]
    cases compileClauses defined s rest' <;> rfl

/-- A literal `true` makes the default. -/
theorem compileClauses_catchAll (defined : String → Bool) (clauses : List Value)
    (hd : clause.isCatchAll = true) (hs : s.isLocal "true" = false) : ∃ consequent,
      clause.clause? = some (.symbol "true", consequent) ∧
        compileClauses defined s (clause :: clauses) =
          (compile defined s consequent).map fun c => ([], some c) := by
  obtain ⟨⟨test, consequent⟩, hp, ht⟩ := Option.any_eq_true _ _ |>.1 hd
  obtain rfl : test = .symbol "true" := by
    cases test <;> simp_all [Value.isSymbol]
  refine ⟨consequent, hp, ?_⟩
  rw [compileClauses_cons_some hp, hs]
  cases compile defined s consequent <;> rfl

end

namespace Code.Equivalent

variable {d : Code} {rest : List (Code × Code)} {default : Option Code}

theorem cond_cons (test c : Code) (h : (Code.cond rest default).Equivalent d) :
    (Code.cond ((test, c) :: rest) default).Equivalent (.branch test c d) := by
  intro host mode l S w
  have decides : Decides (.cond c rest default l) c (.cond rest default) l :=
    .clause c rest default l
  have decides' : Decides (.branch c d l) c d l := .branch c d l
  refine sameRuns_cond_cons.trans (.trans ?_ sameRuns_branch.symm)
  refine sameRuns_below decides.performs decides'.performs (fun v w => ?_)
    (fun e w => (sameRuns_decides_raise decides).trans (sameRuns_decides_raise decides').symm) test
  cases hv : v.toBool with
  | error e =>
    exact (sameRuns_decides_mistyped decides hv).trans (sameRuns_decides_mistyped decides' hv).symm
  | ok b =>
    refine (sameRuns_decides_next decides hv).trans
      (.trans ?_ (sameRuns_decides_next decides' hv).symm)
    cases b with
    | true => exact .refl _
    | false => exact h host mode l S w

/-- The default is what a test that is `true` lets through. -/
theorem cond_default (c d : Code) :
    (Code.cond [] (some c)).Equivalent (.branch (.const (.symbol "true")) c d) := by
  intro host mode l S w
  have give : SameRuns host mode ⟨.eval (.const (.symbol "true")) l, .branch c d l :: S, w⟩
      ⟨.give (.done (.bool true)), .branch c d l :: S, w⟩ := sameRuns_move rfl rfl rfl
  exact sameRuns_cond_default.trans
    ((sameRuns_decides_next (.branch c d l) (toBool_bool true)).symm.trans
      (give.symm.trans sameRuns_branch.symm))

end Code.Equivalent

/-- The code of clauses cannot be told from that of the nested form. The induction is on the
clauses; behind a literal `true` the nested form has code that is never reached. -/
theorem equivalent_nested {defined : String → Bool} {s : Scope} {nested : Value}
    {clauses : List Value} (hn : Value.Nested clauses nested) {cs : List (Code × Code)}
    {default : Option Code} {code : Code}
    (hc : compileClauses defined s clauses = .ok (cs, default))
    (hc' : compile defined s nested = .ok code) : (Code.cond cs default).Equivalent code := by
  induction hn generalizing cs default code with
  | nil h =>
    rw [compileClauses] at hc
    cases hc
    rw [compile_cond h, compileClauses] at hc'
    cases hc'
    exact .refl _
  | @cons clause test consequent rest v clauses hclause _ h ih =>
    obtain ⟨ct, cy, cn, ht, hy, hrest, rfl⟩ := compile_if_ok h hc'
    by_cases hd : clause.isCatchAll = false ∨ s.isLocal "true" = true
    · obtain ⟨p, cs', ⟨test', consequent', hp, ht', hy'⟩, hr, rfl⟩ := compileClauses_cons_ok hd hc
      cases hclause.symm.trans hp
      obtain ⟨rfl, rfl⟩ : ct = p.1 ∧ cy = p.2 := by simp_all
      exact .cond_cons _ _ (ih hr hrest)
    · simp only [not_or, Bool.not_eq_false, Bool.not_eq_true] at hd
      obtain ⟨consequent', hp, hcatch⟩ := compileClauses_catchAll defined clauses hd.1 hd.2
      cases hclause.symm.trans hp
      rw [hcatch, hy] at hc
      cases hc
      have hct : compile defined s.inHead (.symbol "true") = .ok (.const (.symbol "true")) := by
        rw [compile, Scope.isLocal_inHead, hd.2]
        rfl
      obtain rfl : ct = .const (.symbol "true") := by simp_all
      exact .cond_default _ _

/-- The code of a `cond` cannot be told from that of the `if`s that its clauses stand for. It tries
the tests in order and does not go past the first one that does not come to `false`: an error ends
it, a value that is no boolean is an error, and with `true` the consequent is all that is left. When
every test is refused, the default is evaluated, or there is none, and that is an error. Only a
clause whose test is a literal `true`, and not a local, is made the default, and what stands behind
it is not looked at. -/
theorem cond_nested {defined : String → Bool} {s : Scope} {form nested : Value}
    {clauses : List Value} (hf : form.items? = some (.symbol "cond" :: clauses))
    (hn : Value.Nested clauses nested) {code code' : Code} (hc : compile defined s form = .ok code)
    (hc' : compile defined s nested = .ok code') :
    code.Equivalent code' ∧
    ∃ cs default, code = .cond cs default ∧
      (∀ (host : Host) mode l w es o, Observed host mode ⟨.eval code l, [.settle []], w⟩ es o ↔
        ∃ front rest es₁ es₂ w₁, cs = front ++ rest ∧ es = es₁ ++ es₂ ∧
          Refused host mode l front w es₁ w₁ ∧ Decided host mode l default rest w₁ es₂ o) ∧
      ((∀ clause ∈ clauses, clause.isCatchAll = false) ∨ s.isLocal "true" = true →
        List.Forall₂ (CompiledClause defined s) clauses cs ∧ default = none) ∧
      ∀ front clause rest, clauses = front ++ clause :: rest →
        (∀ clause ∈ front, clause.isCatchAll = false) → clause.isCatchAll = true →
        s.isLocal "true" = false →
        List.Forall₂ (CompiledClause defined s) front cs ∧
        (∃ consequent c, clause.clause? = some (.symbol "true", consequent) ∧
          compile defined s consequent = .ok c ∧ default = some c) ∧
        ∀ rest', compileClauses defined s (front ++ clause :: rest') = .ok (cs, default) := by
  rw [compile_cond hf] at hc
  obtain ⟨⟨cs, default⟩, hclauses, rfl⟩ := map_eq_ok_iff.1 hc
  refine ⟨equivalent_nested hn hclauses hc', cs, default, rfl,
    fun host mode l w es o => observed_cond_iff, fun hd => ?_, ?_⟩
  · have hd' : ∀ clause ∈ clauses, clause.isCatchAll = false ∨ s.isLocal "true" = true :=
      fun clause hm => hd.imp_left fun h => h clause hm
    rw [← List.append_nil clauses] at hclauses
    obtain ⟨cs₁, cs₂, rfl, hs, hr, -⟩ := compileClauses_append hd' hclauses
    rw [compileClauses] at hr
    cases hr
    simpa using hs
  · rintro front clause rest rfl hd hcatch hlocal
    obtain ⟨cs₁, cs₂, rfl, hs, hr, happend⟩ :=
      compileClauses_append (fun clause hm => Or.inl (hd clause hm)) hclauses
    obtain ⟨consequent, hclause, heq⟩ := compileClauses_catchAll defined rest hcatch hlocal
    obtain ⟨c, hq, hr⟩ := map_eq_ok_iff.1 (heq.symm.trans hr)
    cases hr
    refine ⟨by simpa using hs, ⟨consequent, c, hclause, hq, rfl⟩, fun rest' => ?_⟩
    obtain ⟨consequent', hclause', heq'⟩ :=
      compileClauses_catchAll defined rest' hcatch hlocal
    cases hclause.symm.trans hclause'
    rw [happend, heq', hq]
    rfl

/-- Three clauses, of which the second one has a literal `true`: the third one is left out of the
code, and the nested form, which keeps it, comes to the second consequent too. -/
theorem cond_nested_literal :
    let form := Value.list [.symbol "cond", .list [.symbol "false", .str "a"],
      .list [.symbol "true", .str "b"], .list [.symbol "false", .str "c"]]
    let nested := Value.list [.symbol "if", .symbol "false", .str "a",
      .list [.symbol "if", .symbol "true", .str "b",
        .list [.symbol "if", .symbol "false", .str "c", .list [.symbol "cond"]]]]
    let no : Code := .const (.symbol "false")
    let code : Code := .cond [(no, .const (.str "a"))] (some (.const (.str "b")))
    let code' : Code := .branch no (.const (.str "a")) (.branch (.const (.symbol "true"))
      (.const (.str "b")) (.branch no (.const (.str "c")) (.cond [] none)))
    compile (fun _ => false) .toplevel form = .ok code ∧
      compile (fun _ => false) .toplevel nested = .ok code' ∧ code.Equivalent code' ∧
      ∀ (host : Host) mode w, Ends host mode ⟨.eval code' [], [.settle []], w⟩ []
        (.ok (.done (.str "b")), w) := by
  intro form nested no code code'
  have hc : compile (fun _ => false) .toplevel form = .ok code := by cbv
  have hc' : compile (fun _ => false) .toplevel nested = .ok code' := by cbv
  have hn : Value.Nested [.list [.symbol "false", .str "a"], .list [.symbol "true", .str "b"],
      .list [.symbol "false", .str "c"]] nested :=
    .cons rfl (.cons rfl (.cons rfl (.nil rfl) rfl) rfl) rfl
  obtain ⟨hequivalent, cs, default, hcode, hobserved, -⟩ := cond_nested rfl hn hc hc'
  injection hcode with hcs hdefault
  subst hcs hdefault
  refine ⟨hc, hc', hequivalent, fun host mode w => ((hequivalent host mode [] _ w).1 _ _).1 ?_⟩
  have settled (k : Literal) : Ends host mode ⟨.eval (.const k) [], [.settle []], w⟩ []
      (.ok (.done k.value), w) :=
    Runs.ends (.silent rfl rfl (.refl _)) (ends_settled _ [] w)
  exact (hobserved host mode [] w [] (some _)).2 ⟨_, [], [], [], w, rfl, rfl,
    .cons _ (settled (.symbol "false")) (.nil w), .default rfl (settled (.str "b"))⟩

end KLambda
