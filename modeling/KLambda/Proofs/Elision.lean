import KLambda.Proofs.Handlers

/-!
Code whose value is not used. A statement is compiled like any other form, except that pure code in
the places where its value would come from is left out. Evaluated, it has the effects and the errors
that it would have had, and leaves the world that it would have left but for a function that nothing
refers to. A sequence leaves out its pure effects, and does what evaluating all of them in order
does.
-/
namespace KLambda

open Machine

/-- The first code is the second one with pure code left out where the value comes from. -/
inductive Code.Elided : Code → Code → Prop
  | same (c : Code) : Elided c c
  | pure {c : Code} (h : c.isPure = true) : Elided (.const .empty) c
  | branch (test : Code) {yes yes' no no' : Code} (hy : Elided yes yes') (hn : Elided no no') :
      Elided (.branch test yes no) (.branch test yes' no')
  | default {c c' : Code} (h : Elided c c') : Elided (.cond [] (some c)) (.cond [] (some c'))
  | clause (test : Code) {c c' : Code} {rest rest' : List (Code × Code)} {d d' : Option Code}
      (hc : Elided c c') (hr : Elided (.cond rest d) (.cond rest' d')) :
      Elided (.cond ((test, c) :: rest) d) (.cond ((test, c') :: rest') d')
  | letIn (name : String) (value : Code) {body body' : Code} (hb : Elided body body') :
      Elided (.letIn name value body) (.letIn name value body')
  | seq (effects : List Code) {last last' : Code} (hl : Elided last last') :
      Elided (.seq effects last) (.seq effects last')
  | trap (body : Code) (param : String) (position : CallPosition) {inner inner' : Code}
      (hi : Elided inner inner') :
      Elided (.trap body (.bind param inner) position) (.trap body (.bind param inner') position)

@[simp]
theorem Scope.isLocal_asStatement (s : Scope) (name : String) :
    s.asStatement.isLocal name = s.isLocal name := rfl

namespace Code.Elided

variable {c c' : Code}

theorem isPure_eq (h : c.Elided c') : c.isPure = c'.isPure := by
  cases h with
  | pure h => exact h.symm
  | _ => rfl

/-- What a statement has done to it at the end. -/
theorem finish (h : c.Elided c') (s : Scope) :
    (Code.finish s.asStatement c).Elided (Code.finish s c') := by
  have hp := h.isPure_eq
  cases hc : c'.isPure with
  | true =>
    have hl : Code.finish s.asStatement c = .const .empty := by
      simp [Code.finish, Scope.asStatement, hp, hc]
    rw [hl]
    unfold Code.finish
    split
    · exact .same _
    · exact .pure hc
  | false => simpa [Code.finish, hp, hc] using h

theorem sequence (h : c.Elided c') (effects : List Code) :
    (Code.sequence effects c).Elided (Code.sequence effects c') := by
  unfold Code.sequence
  split
  · exact h
  · exact .seq _ h

theorem cond {clauses clauses' : List (Code × Code)} {d d' : Option Code}
    (h : List.Forall₂ (fun a b => a.1 = b.1 ∧ a.2.Elided b.2) clauses clauses')
    (hd : Option.Rel Elided d d') : (Code.cond clauses d).Elided (.cond clauses' d') := by
  induction h with
  | nil =>
    cases hd with
    | none => exact .same _
    | some hd => exact .default hd
  | @cons a b _ _ hab _ ih =>
    obtain ⟨test, c⟩ := a
    obtain ⟨rfl, hc⟩ := hab
    exact .clause b.1 hc ih

end Code.Elided

section

variable {defined : String → Bool} {s : Scope} {head : Value} {operands : List Value}

/-- A call does not ask whether its value is used, and the values of its operands are. -/
theorem compileCall_asStatement :
    compileCall defined s.asStatement head operands = compileCall defined s head operands := by
  rw [compileCall, compileCall]
  rfl

end

/-- Compiling a form as a statement gives the same error as compiling it for its value, or the same
code with pure code left out where the value comes from. -/
theorem compile_elided (defined : String → Bool) (s : Scope) (v : Value) :
    Agree Code.Elided (compile defined s.asStatement v) (compile defined s v) := by
  induction v using Value.parts_induction generalizing s with
  | constant v l h =>
    rw [compile_constant h, compile_constant h]
    exact Code.Elided.finish (.same _) s
  | symbol x =>
    rw [compile, compile]
    exact Code.Elided.finish (.same _) s
  | invalid v h =>
    obtain ⟨t, ht⟩ := h.exists_compile
    rw [ht, ht]
    rfl
  | list v head operands hi ih =>
    have call : Agree Code.Elided (compileCall defined s.asStatement head operands)
        (compileCall defined s head operands) := by
      rw [compileCall_asStatement]
      exact .refl .same _
    rw [compile_of_items? hi, compile_of_items? hi]
    refine Agree.map ?_ fun c c' hc => Code.Elided.finish hc s
    cases hc : Construct.ofList head operands <;> rw [hc] at ih
    case malformed e => rfl
    case junction all forms => exact .bind_same _ fun codes => .same _
    case branch test yes no =>
      obtain ⟨-, ihy, ihn⟩ := ih
      exact .bind_same _ fun test => (ihy s).bind fun y y' hy => (ihn s).bind fun n n' hn =>
        .branch test hy hn
    case cond clauses =>
      refine (compileClauses_agree (s := s.asStatement) (t := s) (R := Eq)
        (forall₂_clauses fun v hv p hp => ⟨rfl, .of_eq rfl, (ih v hv p hp).2 s⟩)).bind ?_
      exact fun p q hp => .cond hp.1 hp.2
    case letIn binder value body =>
      refine .bind_same _ fun name => .bind_same _ fun value => ?_
      split
      · exact (ih.2 s).bind fun c c' hc => hc.sequence [value]
      · exact (ih.2 (s.withLocal name)).bind fun c c' hc => .letIn name value hc
    case sequence forms =>
      refine (compileSequence_agree (s := s.asStatement) (t := s) (R := Eq)
        (List.forall₂_same.2 fun v hv => ⟨.of_eq rfl, ih v hv s⟩)).bind ?_
      rintro ⟨effects, c⟩ ⟨effects', c'⟩ ⟨he, hc⟩
      obtain rfl : effects = effects' := by rwa [List.forall₂_eq_eq_eq] at he
      exact hc.sequence effects
    case lambda binder body => exact .bind_same _ fun param => .bind_same _ fun body => .same _
    case freeze body => exact .bind_same _ fun body => .same _
    case trap body handler =>
      refine .bind_same _ fun body => (compileHandler_agree
        (H := fun i i' => (Code.trap body i s.position).Elided (.trap body i' s.position))
        (fun p hp => ?_) fun _ => ?_).bind fun _ _ hi => hi
      · exact (ih.2.2 p hp (s.withLocal p.1)).imp fun c c' hc => .trap body p.1 s.position hc
      · exact (Agree.of_eq rfl).imp fun _ _ hc => hc ▸ .same _
    case defun name params body =>
      rw [Construct.compiled_defun, Construct.compiled_defun]
      exact .bind_same _ fun p => .bind_same _ fun body => .same _
    case lookup name =>
      cases name with
      | symbol x =>
        rw [Construct.compiled, Construct.compiled, Scope.isLocal_asStatement]
        split
        · exact Code.Elided.same _
        · exact call
      | _ => exact call
    case assign name value =>
      cases name with
      | symbol x =>
        rw [Construct.compiled, Construct.compiled, Scope.isLocal_asStatement]
        split
        · exact call
        · exact .bind_same _ fun value => .same _
      | _ => exact call
    case typed form => exact ih s
    case call => exact call

namespace Machine

variable {host : Host} {mode : Mode} {s t s' t' : State} {a b : Frame} {S T : List Frame}
  {es : List Effect} {r r' : Outcome Step × World} {l : Locals} {w : World} {c c' : Code}

/-- The same end, except that a value may be another one, and that more functions may have been made
for it. -/
def SameButValue (r r' : Outcome Step × World) : Prop :=
  r' = r ∨ ∃ v v', r.1 = .ok (.done v) ∧ r'.1 = .ok (.done v') ∧ r.2.Adds r'.2

/-- States with the same effects in the same order that come to the same end but for the value. -/
def SameEffects (next : State → State) (mode : Mode) (s t : State) : Prop :=
  Follows next mode SameButValue s t ∧ Follows next mode (fun r r' => SameButValue r' r) t s

namespace SameEffects

theorem shed (h : SameEffects host mode s t) (hs : Lossless host mode s)
    (ht : Lossless host mode t) : SameEffects (Machine.shed host mode) mode s t :=
  ⟨h.1.shed hs ht, h.2.shed ht hs⟩

theorem of_sameRuns (h : SameRuns host mode s t) : SameEffects host mode s t :=
  ⟨.of_sameRuns (fun _ => Or.inl rfl) h, .of_sameRuns (fun _ => Or.inl rfl) h.symm⟩

theorem congr (h : SameEffects host mode s t) (hs : SameRuns host mode s' s)
    (ht : SameRuns host mode t' t) : SameEffects host mode s' t' :=
  ⟨h.1.congr hs ht, h.2.congr ht hs⟩

theorem onto (ha : a.Performs) (hb : b.Performs)
    (h : ∀ s' : State, s'.Returned →
      SameEffects host mode (s'.onto (a :: S)) (s'.onto (b :: T))) :
    SameEffects host mode (s.onto (a :: S)) (s.onto (b :: T)) :=
  ⟨.onto (fun _ => Or.inl rfl) ha hb fun _ _ s' _ hd => (h s' hd).1,
    .onto (fun _ => Or.inl rfl) hb ha fun _ _ s' _ hd => (h s' hd).2⟩

/-- Code above two frames that go on with the same effects from every value and every error. -/
theorem below (ha : a.Performs) (hb : b.Performs)
    (hv : ∀ v w, SameEffects host mode ⟨.give (.done v), a :: S, w⟩ ⟨.give (.done v), b :: T, w⟩)
    (he : ∀ e w, SameEffects host mode ⟨.raise e, a :: S, w⟩ ⟨.raise e, b :: T, w⟩) (c : Code) :
    SameEffects host mode ⟨.eval c l, a :: S, w⟩ ⟨.eval c l, b :: T, w⟩ := by
  refine onto (s := ⟨.eval c l, [], w⟩) ha hb fun s' hd => ?_
  cases hd with
  | done v w => exact hv v w
  | raise e w => exact he e w

end SameEffects

/-- All that a run emits is what it has done by its end. -/
theorem Ends.emits (h : Ends host mode s es r) {fs : List Effect} (he : Emits host mode s fs) :
    ∃ gs, es = fs ++ gs := by
  obtain ⟨n, t, hr, ht, -⟩ := h
  rcases hr.emits_cases he with hgs | ⟨gs, rfl, k, u, hu⟩
  · exact hgs
  · cases hu with
    | refl => exact ⟨[], by simp⟩
    | move hs => simp [hs] at ht

theorem follows_of_ends {Q : Outcome Step × World → Outcome Step × World → Prop}
    (hs : Ends host mode s es r) (ht : Ends host mode t es r') (hq : Q r r') :
    Follows host mode Q s t where
  ends he := by
    obtain ⟨rfl, rfl⟩ := hs.unique he
    exact ⟨r', ht, hq⟩
  emits he := by
    obtain ⟨gs, rfl⟩ := hs.emits he
    obtain ⟨n, u, hu, -⟩ := ht
    exact Emits.of_append ⟨n, u, hu⟩

/-- Pure code in the place of a constant only makes a function. -/
theorem sameEffects_pure (hp : c.isPure = true) (hc : c.Scoped l.names) :
    SameEffects host mode ⟨.eval (.const .empty) l, [.settle []], w⟩
      ⟨.eval c l, [.settle []], w⟩ := by
  obtain ⟨v, w', hr, hw⟩ := Code.exists_runs_of_pure hp hc host mode [.settle []] w
  have hempty : Ends host mode ⟨.eval (.const .empty) l, [.settle []], w⟩ []
      (.ok (.done .empty), w) :=
    Runs.ends (.silent rfl rfl (.refl _)) (ends_settled .empty [] w)
  have hpure : Ends host mode ⟨.eval c l, [.settle []], w⟩ [] (.ok (.done v), w') :=
    hr.ends (ends_settled v [] w')
  have hsame : SameButValue (.ok (.done .empty), w) (.ok (.done v), w') :=
    Or.inr ⟨.empty, v, rfl, rfl, hw⟩
  exact ⟨follows_of_ends hempty hpure hsame, follows_of_ends hpure hempty hsame⟩

/-- Frames that go on with one of two codes, as a value decides. -/
inductive Decides : Frame → Code → Code → Locals → Prop
  | branch (yes no : Code) (l : Locals) : Decides (.branch yes no l) yes no l
  | clause (c : Code) (rest : List (Code × Code)) (d : Option Code) (l : Locals) :
      Decides (.cond c rest d l) c (.cond rest d) l

section

variable {yes no yes' no' : Code}

theorem Decides.performs (ha : Decides a yes no l) : a.Performs := by
  cases ha <;> trivial

theorem sameRuns_decides_raise (ha : Decides a yes no l) {e : Error} :
    SameRuns host mode ⟨.raise e, a :: S, w⟩ ⟨.raise e, S, w⟩ := by
  cases ha <;> exact sameRuns_move rfl rfl rfl

theorem sameRuns_decides_mistyped (ha : Decides a yes no l) {v : Value} {e : Error}
    (hv : v.toBool = .error e) :
    SameRuns host mode ⟨.give (.done v), a :: S, w⟩ ⟨.raise e, S, w⟩ := by
  cases ha <;> refine sameRuns_move rfl rfl ?_ <;> simp [move, step, resumeFrame, hv]

theorem sameRuns_decides_next (ha : Decides a yes no l) {v : Value} {x : Bool}
    (hv : v.toBool = .ok x) :
    SameRuns host mode ⟨.give (.done v), a :: S, w⟩ ⟨.eval (if x then yes else no) l, S, w⟩ := by
  cases ha <;> refine sameRuns_move rfl rfl ?_ <;> cases x <;> simp [move, step, resumeFrame, hv]

/-- A decision between codes that have the same effects. -/
theorem SameEffects.decides (ha : Decides a yes no l) (hb : Decides b yes' no' l)
    (hy : ∀ w, SameEffects host mode ⟨.eval yes l, S, w⟩ ⟨.eval yes' l, S, w⟩)
    (hn : ∀ w, SameEffects host mode ⟨.eval no l, S, w⟩ ⟨.eval no' l, S, w⟩) (test : Code) :
    SameEffects host mode ⟨.eval test l, a :: S, w⟩ ⟨.eval test l, b :: S, w⟩ := by
  refine .below ha.performs hb.performs (fun v w => ?_) (fun e w => ?_) test
  · cases hv : v.toBool with
    | error e =>
      exact .of_sameRuns
        ((sameRuns_decides_mistyped ha hv).trans (sameRuns_decides_mistyped hb hv).symm)
    | ok x =>
      refine .congr ?_ (sameRuns_decides_next ha hv) (sameRuns_decides_next hb hv)
      cases x with
      | true => exact hy w
      | false => exact hn w
  · exact .of_sameRuns ((sameRuns_decides_raise ha).trans (sameRuns_decides_raise hb).symm)

end

/-- The same effects before the same effects. -/
theorem SameEffects.seq
    (h : ∀ w, SameEffects host mode ⟨.eval c l, S, w⟩ ⟨.eval c' l, S, w⟩) (effects : List Code)
    (w : World) :
    SameEffects host mode ⟨.eval (.seq effects c) l, S, w⟩ ⟨.eval (.seq effects c') l, S, w⟩ := by
  induction effects generalizing w with
  | nil => exact .congr (h w) sameRuns_seq_nil sameRuns_seq_nil
  | cons effect effects ih =>
    refine .congr ?_ sameRuns_seq_cons sameRuns_seq_cons
    refine .below (seq_performs effects c l) (seq_performs effects c' l) (fun v w => ?_)
      (fun e w => ?_) effect
    · exact .congr (ih w) sameRuns_seq_next sameRuns_seq_next
    · exact .of_sameRuns (sameRuns_seq_raise.trans sameRuns_seq_raise.symm)

/-- What was left out is at the end, and up to there both do the same, so that nothing is left that
could be done in a different world. The induction is on where something was left out, for all locals
and worlds that the code may come to. -/
theorem sameEffects_of_elided (h : c.Elided c') (hs : c'.Scoped l.names) :
    SameEffects host mode ⟨.eval c l, [.settle []], w⟩ ⟨.eval c' l, [.settle []], w⟩ := by
  induction h generalizing l w with
  | same c => exact .of_sameRuns (.refl _)
  | pure hp => exact sameEffects_pure hp hs
  | @branch test yes yes' no no' _ _ ihy ihn =>
    cases hs with
    | branch _ hsy hsn =>
      refine .congr ?_ (sameRuns_move rfl rfl rfl) (sameRuns_move rfl rfl rfl)
      exact .decides (.branch yes no l) (.branch yes' no' l) (fun w => ihy hsy) (fun w => ihn hsn)
        test
  | default _ ih =>
    cases hs with
    | cond _ _ hd =>
      exact .congr (ih (hd _ rfl)) (sameRuns_move rfl rfl rfl) (sameRuns_move rfl rfl rfl)
  | @clause test c c' rest rest' d d' _ _ ihc ihr =>
    cases hs with
    | cond ht hc hd =>
      have hsr : (Code.cond rest' d').Scoped l.names :=
        .cond (fun p hp => ht p (List.mem_cons_of_mem _ hp))
          (fun p hp => hc p (List.mem_cons_of_mem _ hp)) hd
      refine .congr ?_ (sameRuns_move rfl rfl rfl) (sameRuns_move rfl rfl rfl)
      exact .decides (.clause c rest d l) (.clause c' rest' d' l)
        (fun w => ihc (hc _ List.mem_cons_self)) (fun w => ihr hsr) test
  | @letIn name value body body' _ ih =>
    cases hs with
    | letIn _ hsb =>
      refine .congr ?_ sameRuns_letIn sameRuns_letIn
      refine .below (a := .letIn name body l) (b := .letIn name body' l) trivial trivial
        (fun v w => ?_) (fun e w => ?_) value
      · exact .congr (ih (l := (name, v) :: l) hsb) sameRuns_letIn_next sameRuns_letIn_next
      · exact .of_sameRuns (sameRuns_letIn_raise.trans sameRuns_letIn_raise.symm)
  | seq effects _ ih =>
    cases hs with
    | seq _ hsl => exact .seq (fun w => ih hsl) effects w
  | @trap body param position inner inner' _ ih =>
    cases hs with
    | trapBind _ _ hsi =>
      refine .congr ?_ sameRuns_trap sameRuns_trap
      refine .below (a := .trap (.bind param inner) position l)
        (b := .trap (.bind param inner') position l) trivial trivial (fun v w => ?_)
        (fun e w => ?_) body
      · exact .of_sameRuns (sameRuns_trap_value.trans sameRuns_trap_value.symm)
      · exact .congr (ih (l := (param, caughtError w e) :: l) hsi) sameRuns_trap_bind
          sameRuns_trap_bind

/-- What can be seen of a run: how it ends, with all of its effects, or else just effects that it
has before any others. -/
def Observed (next : State → State) (mode : Mode) (s : State) (es : List Effect) :
    Option (Outcome Step × World) → Prop
  | some r => Ends next mode s es r
  | none => Emits next mode s es

/-- Evaluating one code after the other, each settled by itself, and then a last one. The values are
discarded; nothing comes after an error, or after a run that has not ended. -/
inductive InOrder (next : State → State) (mode : Mode) (l : Locals) (last : Code) :
    List Code → World → List Effect → Option (Outcome Step × World) → Prop
  | last {w : World} {es : List Effect} {o : Option (Outcome Step × World)}
      (h : Observed next mode ⟨.eval last l, [.settle []], w⟩ es o) :
      InOrder next mode l last [] w es o
  | stop {c : Code} {cs : List Code} {w : World} {es : List Effect}
      {o : Option (Outcome Step × World)}
      (h : Observed next mode ⟨.eval c l, [.settle []], w⟩ es o)
      (ho : ∀ r ∈ o, ∃ e, r.1 = .error e) : InOrder next mode l last (c :: cs) w es o
  | next {c : Code} {cs : List Code} {w w' : World} {es fs : List Effect} {v : Value}
      {o : Option (Outcome Step × World)}
      (h : Ends next mode ⟨.eval c l, [.settle []], w⟩ es (.ok (.done v), w'))
      (hr : InOrder next mode l last cs w' fs o) : InOrder next mode l last (c :: cs) w (es ++ fs) o

/-- None of these codes loses bytes that a stream holds back, evaluated one after the other. -/
def LosslessInOrder (host : Host) (mode : Mode) (l : Locals) (last : Code) :
    List Code → World → Prop
  | [], w => Lossless host mode ⟨.eval last l, [.settle []], w⟩
  | c :: cs, w => Lossless host mode ⟨.eval c l, [.settle []], w⟩ ∧ ∀ es v w',
      Ends host mode ⟨.eval c l, [.settle []], w⟩ es (.ok (.done v), w') →
      LosslessInOrder host mode l last cs w'

section

variable {o : Option (Outcome Step × World)} {effects : List Code} {last : Code} {n : Nat}
  {fs : List Effect}

theorem observed_iff : Observed host mode s es o ↔
    ∃ n t, Runs host mode n s es t ∧ ∀ r ∈ o, result? mode t = some r.1 ∧ t.world = r.2 := by
  cases o <;> simp [Observed, Emits, Ends]

theorem Lossless.observed_iff (h : Lossless host mode s) :
    Observed (shed host mode) mode s es o ↔ Observed host mode s es o := by
  cases o with
  | none => exact h.emits_iff
  | some r => exact h.ends_iff

theorem LosslessInOrder.iff (h : LosslessInOrder host mode l last effects w) :
    InOrder (shed host mode) mode l last effects w es o ↔
      InOrder host mode l last effects w es o := by
  induction effects generalizing w es with
  | nil =>
    constructor
    · rintro ⟨ho⟩
      exact .last (h.observed_iff.1 ho)
    · rintro ⟨ho⟩
      exact .last (h.observed_iff.2 ho)
  | cons c cs ih =>
    constructor
    · intro ho
      cases ho with
      | stop ho he => exact .stop (h.1.observed_iff.1 ho) he
      | next ho hr =>
        have hc := h.1.ends_iff.1 ho
        exact .next hc ((ih (h.2 _ _ _ hc)).1 hr)
    · intro ho
      cases ho with
      | stop ho he => exact .stop (h.1.observed_iff.2 ho) he
      | next ho hr => exact .next (h.1.ends_iff.2 ho) ((ih (h.2 _ _ _ ho)).2 hr)

theorem SameRuns.observed_iff (h : SameRuns host mode s t) :
    Observed host mode s es o ↔ Observed host mode t es o := by
  cases o with
  | none => exact h.2 es
  | some r => exact h.1 es r

theorem Runs.observed (h : Runs host mode n s es t) (ho : Observed host mode t fs o) :
    Observed host mode s (es ++ fs) o := by
  cases o with
  | none => exact h.emits ho
  | some r => exact h.ends ho

theorem Ends.observed (h : Ends host mode s es r) (ho : ∀ q ∈ o, q = r) :
    Observed host mode s es o := by
  cases o with
  | none =>
    obtain ⟨n, t, hr, -⟩ := h
    exact ⟨n, t, hr⟩
  | some q =>
    obtain rfl := ho q rfl
    exact h

/-- Nothing more can be seen of a run than that it ends at once. -/
theorem Ends.eq_of_observed (h : Ends host mode s [] r) (ho : Observed host mode s es o) :
    es = [] ∧ ∀ q ∈ o, q = r := by
  cases o with
  | none =>
    obtain ⟨gs, hgs⟩ := h.emits ho
    exact ⟨(List.append_eq_nil_iff.1 hgs.symm).1, by simp⟩
  | some q =>
    obtain ⟨rfl, rfl⟩ := h.unique ho
    exact ⟨rfl, by simp⟩

/-- What can be seen of what is above a frame can be seen above every other, or it goes on from what
comes back to the frame. -/
theorem Observed.onto_cases (h : Observed host mode (s.onto (a :: S)) es o) (ha : a.Performs) :
    ((∀ r ∈ o, ∃ e, r.1 = .error e) ∧ ∀ (b : Frame) (T : List Frame), b.Performs →
      Observed host mode (s.onto (b :: T)) es o) ∨
    ∃ k es₁ es₂ s', es = es₁ ++ es₂ ∧ Above host mode k s es₁ s' ∧ s'.Returned ∧
      Observed host mode (s'.onto (a :: S)) es₂ o := by
  obtain ⟨n, t, hr, ho⟩ := observed_iff.1 h
  rcases hr.above ha with ⟨s', rfl, hs⟩ | ⟨k, m, es₁, es₂, s', rfl, hs, hd, ht⟩
  · have same : ∀ (b : Frame) (T : List Frame), ∀ r ∈ o,
        result? mode (s'.onto (b :: T)) = some r.1 :=
      fun b T r hr => (result?_onto_cons s' b a T S).trans (ho r hr).1
    refine Or.inl ⟨fun r hr => ⟨_, result?_onto_error (same a [] r hr)⟩, fun b T hb => ?_⟩
    exact observed_iff.2 ⟨n, _, hs b T hb, fun r hr => ⟨same b T r hr, (ho r hr).2⟩⟩
  · exact Or.inr ⟨k, es₁, es₂, s', rfl, hs, hd, observed_iff.2 ⟨m, t, ht, ho⟩⟩

/-- What can be seen of what is above a frame that errors go through: what can be seen where it is
settled, as long as there is no value, and what the frame does with a value. -/
theorem observed_onto_iff (hb : b.Performs)
    (hr : ∀ e w, Ends host mode ⟨.raise e, b :: T, w⟩ [] (.error e, w)) :
    Observed host mode (s.onto (b :: T)) es o ↔
      (∀ r ∈ o, ∃ e, r.1 = .error e) ∧ Observed host mode (s.onto [.settle []]) es o ∨
      ∃ v w es₁ es₂, es = es₁ ++ es₂ ∧
        Ends host mode (s.onto [.settle []]) es₁ (.ok (.done v), w) ∧
        Observed host mode ⟨.give (.done v), b :: T, w⟩ es₂ o := by
  have hr' : ∀ e w, Ends host mode ⟨.raise e, [.settle []], w⟩ [] (.error e, w) :=
    ends_raised fun _ _ => rfl
  constructor
  · intro h
    rcases h.onto_cases hb with ⟨he, hs⟩ | ⟨k, es₁, es₂, s', rfl, hs, hd, hrest⟩
    · exact Or.inl ⟨he, hs (.settle []) [] trivial⟩
    · have hsettle := hs (.settle []) [] trivial
      cases hd with
      | done v w =>
        exact Or.inr ⟨v, w, es₁, es₂, rfl, by simpa using hsettle.ends (ends_settled v [] w), hrest⟩
      | raise e w =>
        obtain ⟨rfl, hq⟩ := (hr e w).eq_of_observed hrest
        exact Or.inl ⟨fun r hr => ⟨e, by rw [hq r hr]⟩, hsettle.observed ((hr' e w).observed hq)⟩
  · rintro (⟨he, h⟩ | ⟨v, w, es₁, es₂, rfl, h, hrest⟩)
    · rcases h.onto_cases trivial with ⟨-, hs⟩ | ⟨k, es₁, es₂, s', rfl, hs, hd, hrest⟩
      · exact hs b T hb
      · have habove := hs b T hb
        cases hd with
        | done v w =>
          obtain ⟨rfl, hq⟩ := (ends_settled v [] w).eq_of_observed hrest
          have hnone : o = none := by
            cases o with
            | none => rfl
            | some r =>
              obtain ⟨e, hre⟩ := he r rfl
              rw [hq r rfl] at hre
              cases hre
          subst hnone
          exact habove.observed ⟨0, _, .refl _⟩
        | raise e w =>
          obtain ⟨rfl, hq⟩ := (hr' e w).eq_of_observed hrest
          exact habove.observed ((hr e w).observed hq)
    · obtain ⟨n, hs⟩ := h.above
      exact (hs b T hb).observed hrest

/-- A sequence does what evaluating its effects in order does. -/
theorem observed_seq_iff : Observed host mode ⟨.eval (.seq effects last) l, [.settle []], w⟩ es o ↔
    InOrder host mode l last effects w es o := by
  have raised : ∀ cs e w,
      Ends host mode ⟨.raise e, [.seq cs last l, .settle []], w⟩ [] (.error e, w) :=
    fun cs e w => (sameRuns_seq_raise.1 _ _).2 (ends_raised (fun _ _ => rfl) e w)
  induction effects generalizing w es with
  | nil =>
    rw [sameRuns_seq_nil.observed_iff]
    constructor
    · exact .last
    · rintro ⟨h⟩
      exact h
  | cons c cs ih =>
    rw [sameRuns_seq_cons.observed_iff]
    refine (observed_onto_iff (s := ⟨.eval c l, [], w⟩) (seq_performs cs last l)
      (raised cs)).trans ⟨?_, ?_⟩
    · rintro (⟨ho, h⟩ | ⟨v, w', es₁, es₂, rfl, h, hr⟩)
      · exact .stop h ho
      · exact .next h (ih.1 (sameRuns_seq_next.observed_iff.1 hr))
    · intro h
      cases h with
      | stop h ho => exact Or.inl ⟨ho, h⟩
      | next h hr =>
        exact Or.inr ⟨_, _, _, _, rfl, h, sameRuns_seq_next.observed_iff.2 (ih.2 hr)⟩

end

section

variable {effects : List Code} {last : Code}

/-- The code that is built for a sequence is the sequence of the effects that are not pure. -/
theorem sameRuns_sequence : SameRuns host mode ⟨.eval (.sequence effects last) l, S, w⟩
    ⟨.eval (.seq (effects.filter (!·.isPure)) last) l, S, w⟩ := by
  unfold Code.sequence
  split
  · rename_i he
    rw [he]
    exact sameRuns_seq_nil.symm
  · exact .refl _

/-- Leaving out the pure effects leaves the outcome of a sequence as it is. The induction is on the
effects: one that is pure adds a function that nothing refers to, and one that is not comes to a
world in which the rest has the same outcome. -/
theorem sameOutcome_filter (hh : host.Natural) (hg : host.Grounded) (hw : w.Grounded)
    (hs : ∀ c ∈ effects, c.Scoped l.names) (hl : ∀ v ∈ l.values, w.Holds v) :
    SameOutcome host mode w.heap.bodies.size
      ⟨.eval (.seq (effects.filter (!·.isPure)) last) l, [.settle []], w⟩
      ⟨.eval (.seq effects last) l, [.settle []], w⟩ := by
  induction effects generalizing w with
  | nil => exact (SameRuns.refl _).sameOutcome _
  | cons c cs ih =>
    obtain ⟨hc, hcs⟩ := List.forall_mem_cons.1 hs
    cases hp : c.isPure with
    | true =>
      rw [List.filter_cons_of_neg (by simp [hp])]
      obtain ⟨v, w', hr, hadds⟩ :=
        Code.exists_runs_of_pure hp hc host mode [.seq cs last l, .settle []] w
      have hrest : SameRuns host mode ⟨.eval (.seq (c :: cs) last) l, [.settle []], w⟩
          ⟨.eval (.seq cs last) l, [.settle []], w'⟩ :=
        sameRuns_seq_cons.trans (hr.sameRuns.trans sameRuns_seq_next)
      refine SameOutcome.congr ((ih hw hcs hl).trans ?_) (.refl _) hrest
      exact sameOutcome_of_extends hh hw (.of_adds hadds) (.seq cs last) hl
    | false =>
      rw [List.filter_cons_of_pos (by simp [hp])]
      have hstate : State.Grounded ⟨.eval c l, [], w⟩ := ⟨hw, hl, by simp⟩
      refine SameOutcome.congr ?_ sameRuns_seq_cons sameRuns_seq_cons
      refine SameOutcome.onto (s := ⟨.eval c l, [], w⟩) hg (seq_performs _ last l)
        (seq_performs cs last l) hstate fun k es s' hk hd => ?_
      cases hd with
      | done v w' =>
        have hgrows : w.Grows w' := hk.grows hg hstate
        have hrest := ih hgrows.grounded hcs fun u hu => hgrows.holds (hl u hu)
        exact hrest.congr sameRuns_seq_next sameRuns_seq_next
      | raise e w' => exact (sameRuns_seq_raise.trans sameRuns_seq_raise.symm).sameOutcome _

end

end Machine

/-- Leaving out what is pure cannot be told, unless bytes are lost that a stream holds back. A form
compiled as a statement gives the same error as it does otherwise, or code that has the same effects
in the same order where the locals of its scope are bound, and then the same error, or a value in
the same world but for functions that were made for the value alone. The code built for a sequence
of effects has the outcome of the sequence of all of them, up to the places of functions that are
made later on, and that sequence does what evaluating the effects in order does. -/
theorem effect_elision_sound (defined : String → Bool) (s : Scope) :
    (∀ v, (∀ e, compile defined s.asStatement v = .error e ↔ compile defined s v = .error e) ∧
      ∀ c c', compile defined s.asStatement v = .ok c → compile defined s v = .ok c' →
        ∀ (host : Host) mode l w, s.locals ⊆ l.names →
          Lossless host mode ⟨.eval c l, [.settle []], w⟩ →
          Lossless host mode ⟨.eval c' l, [.settle []], w⟩ →
          SameEffects (shed host mode) mode ⟨.eval c l, [.settle []], w⟩
            ⟨.eval c' l, [.settle []], w⟩) ∧
    ∀ effects last, (∀ c ∈ effects, ∃ d t v, t.locals = s.locals ∧ compile d t v = .ok c) →
      ∀ (host : Host) mode l w, host.Natural → host.Grounded → w.Grounded → s.locals ⊆ l.names →
        (∀ v ∈ l.values, w.Holds v) →
        SameUnlessLost host mode w.heap.bodies.size
          ⟨.eval (.sequence effects last) l, [.settle []], w⟩
          ⟨.eval (.seq effects last) l, [.settle []], w⟩ ∧
        (Lossless host mode ⟨.eval (.seq effects last) l, [.settle []], w⟩ →
          LosslessInOrder host mode l last effects w →
          ∀ es o,
            Observed (shed host mode) mode ⟨.eval (.seq effects last) l, [.settle []], w⟩ es o ↔
              InOrder (shed host mode) mode l last effects w es o) := by
  refine ⟨fun v => ⟨fun e => (compile_elided defined s v).error_iff e, ?_⟩, ?_⟩
  · intro c c' hc hc' host mode l w hl hlossless hlossless'
    have helided := compile_elided defined s v
    rw [hc, hc'] at helided
    exact (sameEffects_of_elided helided ((compile_scoped hc').mono hl)).shed hlossless hlossless'
  · intro effects last he host mode l w hh hg hw hl hv
    have hs : ∀ c ∈ effects, c.Scoped l.names := by
      intro c hc
      obtain ⟨d, t, v, ht, hcode⟩ := he c hc
      exact (compile_scoped hcode).mono (ht ▸ hl)
    refine ⟨?_, fun hseq horder es o => ?_⟩
    · exact ((sameOutcome_filter hh hg hw hs hv).congr sameRuns_sequence (.refl _)).unlessLost
    · rw [hseq.observed_iff, horder.iff]
      exact observed_seq_iff

theorem losslessInOrder_of_unbuffered {host : Host} {mode : Mode} {l : Locals} {last : Code}
    {effects : List Code} {w : World} (hh : host.Unbuffered) (hw : w.Unbuffered) :
    LosslessInOrder host mode l last effects w := by
  induction effects generalizing w with
  | nil => exact lossless_of_unbuffered hh hw mode
  | cons c cs ih =>
    exact ⟨lossless_of_unbuffered hh hw mode, fun es v w' he => ih (he.unbuffered hh hw)⟩

/-- A conditional loses both of its values as a statement, and a function that nothing is done with
is left out of a sequence with a call. -/
theorem effect_elision_sound_lambda :
    let identity := Value.list [.symbol "lambda", .symbol "Y", .symbol "Y"]
    let form := Value.list [.symbol "if", .symbol "true", identity, .str "no"]
    let test : Code := .const (.symbol "true")
    let closure : Code := .lambda "lambda" "Y" (.local "Y")
    let call : Code := .call (.global "f") [] .head
    compile (fun _ => false) Scope.toplevel.asStatement form =
      .ok (.branch test (.const .empty) (.const .empty)) ∧
    compile (fun _ => false) .toplevel form = .ok (.branch test closure (.const (.str "no"))) ∧
    SameEffects (shed .echo .sync) .sync
      ⟨.eval (.branch test (.const .empty) (.const .empty)) [], [.settle []],
        World.create .empty {} 0 0⟩
      ⟨.eval (.branch test closure (.const (.str "no"))) [], [.settle []],
        World.create .empty {} 0 0⟩ ∧
    Code.sequence [closure, call] test = .seq [call] test ∧
    Host.Natural .echo ∧ Host.Grounded .echo ∧ (World.create .empty {} 0 0).Grounded ∧
    (World.create .empty {} 0 0).Unbuffered ∧
    SameOutcome (shed .echo .sync) .sync (World.create .empty {} 0 0).heap.bodies.size
      ⟨.eval (.sequence [closure, call] test) [], [.settle []], World.create .empty {} 0 0⟩
      ⟨.eval (.seq [closure, call] test) [], [.settle []], World.create .empty {} 0 0⟩ ∧
    ∀ es o, Observed (shed .echo .sync) .sync
        ⟨.eval (.seq [closure, call] test) [], [.settle []], World.create .empty {} 0 0⟩ es o ↔
      InOrder (shed .echo .sync) .sync [] test [closure, call] (World.create .empty {} 0 0)
        es o := by
  intro identity form test closure call
  have hstatement : compile (fun _ => false) Scope.toplevel.asStatement form =
      .ok (.branch test (.const .empty) (.const .empty)) := by cbv
  have hvalue : compile (fun _ => false) .toplevel form =
      .ok (.branch test closure (.const (.str "no"))) := by cbv
  have hclosure : compile (fun _ => false) .toplevel identity = .ok closure := by cbv
  have hcall : compile (fun _ => false) Scope.toplevel.inHead (.list [.symbol "f"]) = .ok call := by
    cbv
  have hlocals : Scope.toplevel.locals ⊆ Locals.names [] := List.Subset.refl []
  have hw : (World.create .empty {} 0 0).Grounded := .create .empty {} 0 0
  have hu : (World.create .empty {} 0 0).Unbuffered := .create_empty 0 0
  have lossless : ∀ c, Lossless .echo .sync ⟨.eval c [], [.settle []], .create .empty {} 0 0⟩ :=
    fun c => lossless_of_unbuffered Host.unbuffered_echo hu .sync
  obtain ⟨hforms, hsequences⟩ := effect_elision_sound (fun _ => false) .toplevel
  obtain ⟨-, hcodes⟩ := hforms form
  have heffects : ∀ c ∈ [closure, call],
      ∃ d t v, t.locals = Scope.toplevel.locals ∧ compile d t v = .ok c := by
    intro c hc
    obtain rfl | rfl : c = closure ∨ c = call := by simpa using hc
    · exact ⟨_, .toplevel, _, rfl, hclosure⟩
    · exact ⟨_, Scope.toplevel.inHead, _, rfl, hcall⟩
  obtain ⟨hsequence, horder⟩ := hsequences [closure, call] test heffects .echo .sync [] _
    Host.natural_echo Host.grounded_echo hw hlocals (by simp [Locals.values])
  exact ⟨hstatement, hvalue,
    hcodes _ _ hstatement hvalue .echo .sync [] _ hlocals (lossless _) (lossless _), rfl,
    Host.natural_echo, Host.grounded_echo, hw, hu, hsequence (lossless _) (lossless _),
    horder (lossless _) (losslessInOrder_of_unbuffered Host.unbuffered_echo hu)⟩

/-- Two streams that write the same file, each with a byte that has not reached it. -/
def World.contending : World :=
  { World.withheld [("a", .writer), ("b", .stream ⟨1, "t", .output⟩)] with
    heap.streams := #[⟨"t", .output, .live (.sink "t" 0 #[65])⟩,
      ⟨"t", .output, .live (.sink "t" 0 #[66])⟩] }

/-- A stream that is the value of a form outlives the locals, and the value of a statement does not:
after `(let A (value a) (let B (value b) (do (set a y) (set b y) A B)))` the file has the byte of
the second stream, which is let go of with the value, and after the statement that of the first. -/
theorem not_effect_elision_sound :
    ¬ ∀ (defined : String → Bool) (s : Scope) (v : Value) (c c' : Code) (l : Locals) (w : World)
      (m n : Nat) (x y : Value) (u u' : World),
      compile defined s.asStatement v = .ok c → compile defined s v = .ok c' →
      s.locals ⊆ l.names → settle (Console.next .sync) .sync m (.eval c l) w = (.ok x, u) →
      settle (Console.next .sync) .sync n (.eval c' l) w = (.ok y, u') →
      (Console.forget u x).heap.disk = (Console.forget u' y).heap.disk := by
  intro h
  let form := Value.list [.symbol "let", .symbol "A", .list [.symbol "value", .symbol "a"],
    .list [.symbol "let", .symbol "B", .list [.symbol "value", .symbol "b"],
      .list [.symbol "do", .list [.symbol "set", .symbol "a", .symbol "y"],
        .list [.symbol "set", .symbol "b", .symbol "y"], .symbol "A", .symbol "B"]]]
  let code (last : Code) : Code := .letIn "A" (.globalValue "a") (.letIn "B" (.globalValue "b")
    (.seq [.setGlobal "a" (.const (.symbol "y")), .setGlobal "b" (.const (.symbol "y"))] last))
  have hc : compile (fun _ => true) Scope.toplevel.asStatement form =
      .ok (code (.const .empty)) := by cbv
  have hc' : compile (fun _ => true) .toplevel form = .ok (code (.local "B")) := by cbv
  let s := settle (Console.next .sync) .sync 40 (.eval (code (.const .empty)) []) .contending
  let e := settle (Console.next .sync) .sync 40 (.eval (code (.local "B")) []) .contending
  have statement : (s.1.value?.map fun x => (Console.forget s.2 x).heap.disk.contents "t") =
      some #[65] := by
    decide +kernel
  have value : (e.1.value?.map fun y => (Console.forget e.2 y).heap.disk.contents "t") =
      some #[66] := by
    decide +kernel
  obtain ⟨x, hx, hx'⟩ := Option.map_eq_some_iff.1 statement
  obtain ⟨y, hy, hy'⟩ := Option.map_eq_some_iff.1 value
  have hdisk := h _ _ _ _ _ [] .contending 40 40 x y s.2 e.2 hc hc' (List.Subset.refl _)
    (Outcome.eq_of_value? hx) (Outcome.eq_of_value? hy)
  exact absurd (hx'.symm.trans ((congrArg (Disk.contents · "t") hdisk).trans hy')) (by decide)

end KLambda
