import KLambda.Proofs.Above
import KLambda.Proofs.Lexical
import Mathlib.Logic.Relation

/-!
Positions of calls. A call ends the code it is in if it is reached through branches, consequents,
bodies of bindings, last forms and inline handlers alone. The calls that end a function's body are
in tail position, and so are those that end the whole if that is; all others are in head position.
Code that stands in head position never hands a call back, and the body of a function hands back
every call that it ends in before going into anything.
-/
namespace KLambda

/-- What holds of all pairs holds of what is paired with something. -/
theorem forall_of_zip {α β : Type} {as : List α} {bs : List β} {P : β → Prop}
    (hl : as.length = bs.length) (h : ∀ p ∈ as.zip bs, P p.2) : ∀ b ∈ bs, P b := by
  intro b hb
  rw [← List.map_snd_zip (Nat.le_of_eq hl.symm)] at hb
  obtain ⟨p, hp, rfl⟩ := List.mem_map.1 hb
  exact h p hp

namespace Code

/-- The parts that the value of the whole comes from. -/
@[simp]
def endings : Code → List Code
  | .branch _ yes no => [yes, no]
  | .cond clauses default => clauses.map Prod.snd ++ default.toList
  | .letIn _ _ body => [body]
  | .seq _ last => [last]
  | .trap _ (.bind _ inner) _ => [inner]
  | _ => []

/-- The body of a function that code makes. -/
@[simp]
def functionBody? : Code → Option Code
  | .lambda _ _ body | .freeze _ body | .defun _ _ body => some body
  | _ => none

/-- The parts whose value is consumed at once. -/
@[simp]
def operands : Code → List Code
  | .all codes | .any codes | .interop _ codes => codes
  | .branch test _ _ => [test]
  | .cond clauses _ => clauses.map Prod.fst
  | .letIn _ value _ | .setGlobal _ value => [value]
  | .seq effects _ => effects
  | .trap body (.bind ..) _ => [body]
  | .trap body (.apply function) _ => [body, function]
  | .call (.computed head) args _ => head :: args
  | .call _ args _ => args
  | _ => []

/-- The codes that occur in code that stands in a position, and the positions they stand in. -/
inductive Occurs (p : CallPosition) (c : Code) : CallPosition → Code → Prop
  | root : Occurs p c p c
  | ending {q : CallPosition} {d e : Code} (h : Occurs p c q d) (he : e ∈ d.endings) :
      Occurs p c q e
  | operand {q : CallPosition} {d e : Code} (h : Occurs p c q d) (he : e ∈ d.operands) :
      Occurs p c .head e
  | body {q : CallPosition} {d e : Code} (h : Occurs p c q d) (he : d.functionBody? = some e) :
      Occurs p c .tail e

/-- The position that a call carries, or a trap, which may call its handler. -/
@[simp]
def position? : Code → Option CallPosition
  | .call _ _ position | .trap _ _ position => some position
  | _ => none

/-- Every call carries the position that it stands in. -/
def Placed (p : CallPosition) (c : Code) : Prop :=
  ∀ q d, c.Occurs p q d → ∀ r, d.position? = some r → r = q

variable {p q r : CallPosition} {c d e : Code}

theorem Occurs.trans (h : c.Occurs p q d) (h' : d.Occurs q r e) : c.Occurs p r e := by
  induction h' with
  | root => exact h
  | ending _ he ih => exact .ending ih he
  | operand _ he ih => exact .operand ih he
  | body _ he ih => exact .body ih he

/-- Code occurs at the root or in one of the parts. -/
theorem Occurs.cases_root (h : c.Occurs p q d) :
    (q = p ∧ d = c) ∨ (∃ e ∈ c.endings, e.Occurs p q d) ∨ (∃ e ∈ c.operands, e.Occurs .head q d) ∨
      ∃ e ∈ c.functionBody?, e.Occurs .tail q d := by
  induction h with
  | root => exact Or.inl ⟨rfl, rfl⟩
  | ending _ he ih =>
    rcases ih with ⟨rfl, rfl⟩ | ⟨x, hx, ho⟩ | ⟨x, hx, ho⟩ | ⟨x, hx, ho⟩
    · exact Or.inr (Or.inl ⟨_, he, .root⟩)
    · exact Or.inr (Or.inl ⟨x, hx, ho.ending he⟩)
    · exact Or.inr (Or.inr (Or.inl ⟨x, hx, ho.ending he⟩))
    · exact Or.inr (Or.inr (Or.inr ⟨x, hx, ho.ending he⟩))
  | operand _ he ih =>
    rcases ih with ⟨rfl, rfl⟩ | ⟨x, hx, ho⟩ | ⟨x, hx, ho⟩ | ⟨x, hx, ho⟩
    · exact Or.inr (Or.inr (Or.inl ⟨_, he, .root⟩))
    · exact Or.inr (Or.inl ⟨x, hx, ho.operand he⟩)
    · exact Or.inr (Or.inr (Or.inl ⟨x, hx, ho.operand he⟩))
    · exact Or.inr (Or.inr (Or.inr ⟨x, hx, ho.operand he⟩))
  | body _ he ih =>
    rcases ih with ⟨rfl, rfl⟩ | ⟨x, hx, ho⟩ | ⟨x, hx, ho⟩ | ⟨x, hx, ho⟩
    · exact Or.inr (Or.inr (Or.inr ⟨_, he, .root⟩))
    · exact Or.inr (Or.inl ⟨x, hx, ho.body he⟩)
    · exact Or.inr (Or.inr (Or.inl ⟨x, hx, ho.body he⟩))
    · exact Or.inr (Or.inr (Or.inr ⟨x, hx, ho.body he⟩))

namespace Placed

theorem occurs (h : c.Placed p) (ho : c.Occurs p q d) : d.Placed q :=
  fun r e he => h r e (ho.trans he)

theorem of_parts (hc : ∀ r, c.position? = some r → r = p) (he : ∀ e ∈ c.endings, e.Placed p)
    (ho : ∀ e ∈ c.operands, e.Placed .head)
    (hb : ∀ e, c.functionBody? = some e → e.Placed .tail) : c.Placed p := by
  intro q d hd
  rcases hd.cases_root with ⟨rfl, rfl⟩ | ⟨e, hx, hd⟩ | ⟨e, hx, hd⟩ | ⟨e, hx, hd⟩
  · exact hc
  · exact he e hx q d hd
  · exact ho e hx q d hd
  · exact hb e hx q d hd

theorem sequence {effects : List Code} (he : ∀ e ∈ effects, e.Placed .head) (hc : c.Placed p) :
    (Code.sequence effects c).Placed p := by
  unfold Code.sequence
  split
  · exact hc
  · refine of_parts (by simp) (by simpa using hc) (fun e hx => ?_) (by simp)
    exact he e (List.mem_filter.1 hx).1

theorem cond {α : Type} {clauses : List α} {codes : List (Code × Code)} {default : Option Code}
    (hl : clauses.length = codes.length)
    (ht : ∀ x ∈ clauses.zip codes, x.2.1.Placed .head)
    (hb : ∀ x ∈ clauses.zip codes, x.2.2.Placed p) (hd : ∀ d ∈ default, d.Placed p) :
    (Code.cond codes default).Placed p := by
  refine of_parts (by simp) (fun e he => ?_) (fun e he => ?_) (by simp)
  · rcases List.mem_append.1 he with he | he
    · obtain ⟨x, hx, rfl⟩ := List.mem_map.1 he
      exact forall_of_zip (P := fun x => x.2.Placed p) hl hb x hx
    · exact hd e (Option.mem_toList.1 he)
  · obtain ⟨x, hx, rfl⟩ := List.mem_map.1 he
    exact forall_of_zip (P := fun x => x.1.Placed .head) hl ht x hx

end Placed
end Code

/-- Calls carry the position that they are compiled in. -/
theorem Compiles.placed {s : Scope} {v : Value} {c : Code} (h : Compiles s v c) :
    c.Placed s.position := by
  induction h with
  | typed _ _ ih => exact ih
  | letDead _ _ _ _ iha ihb | letDiscard _ _ _ iha ihb =>
    exact .sequence (List.forall_mem_singleton.2 iha) ihb
  | sequence _ hl _ _ ihe ihc => exact .sequence (forall_of_zip hl ihe) ihc
  | all _ hl _ ih | any _ hl _ ih | interop _ _ _ _ hl _ ih =>
    exact .of_parts (by simp) (by simp) (forall_of_zip hl ih) (by simp)
  | callLocal _ _ _ hl _ ih | callGlobal _ _ _ _ hl _ ih =>
    exact .of_parts (by simp) (by simp) (forall_of_zip hl ih) (by simp)
  | callComputed _ _ _ hl _ ihh ih =>
    exact .of_parts (by simp) (by simp) (List.forall_mem_cons.2 ⟨ihh, forall_of_zip hl ih⟩)
      (by simp)
  | branch _ _ _ _ iht ihy ihn =>
    exact .of_parts (by simp) (by simp [ihy, ihn]) (List.forall_mem_singleton.2 iht) (by simp)
  | cond _ _ hl _ _ iht ihb => exact .cond hl iht ihb (by simp)
  | condDefault _ _ hl _ _ _ iht ihb ihd => exact .cond hl iht ihb (by simpa using ihd)
  | letIn _ _ _ _ iha ihb =>
    exact .of_parts (by simp) (List.forall_mem_singleton.2 ihb) (List.forall_mem_singleton.2 iha)
      (by simp)
  | assign _ _ _ ih =>
    exact .of_parts (by simp) (by simp) (List.forall_mem_singleton.2 ih) (by simp)
  | lambda _ _ ih | freeze _ _ ih | defun _ _ _ ih =>
    exact .of_parts (by simp) (by simp) (by simp) (by rintro _ ⟨⟩; exact ih)
  | trapBind _ _ _ _ ihb ihi =>
    exact .of_parts (by simp) (List.forall_mem_singleton.2 ihi) (List.forall_mem_singleton.2 ihb)
      (by simp)
  | trapApply _ _ _ _ ihb ihf =>
    exact .of_parts (by simp) (by simp)
      (List.forall_mem_cons.2 ⟨ihb, List.forall_mem_singleton.2 ihf⟩) (by simp)
  | _ => exact .of_parts (by simp) (by simp) (by simp) (by simp)

/-- The code that code ends in, any number of endings down. -/
def Code.EndsIn (c d : Code) : Prop := Relation.ReflTransGen (fun c d => d ∈ c.endings) c d

/-- Every call that the code ends in carries the position. -/
def Code.EndsAt (p : CallPosition) (c : Code) : Prop :=
  ∀ d, c.EndsIn d → ∀ r, d.position? = some r → r = p

namespace Code

variable {p : CallPosition} {c d e : Code}

theorem EndsIn.occurs (h : c.EndsIn d) : c.Occurs p p d := by
  induction h with
  | refl => exact .root
  | tail _ he ih => exact .ending ih he

/-- What stands in tail position ends the whole, if that does, or the body of a function. -/
theorem occurs_tail_iff :
    c.Occurs p .tail d ↔ (p = .tail ∧ c.EndsIn d) ∨
      ∃ q e body, c.Occurs p q e ∧ e.functionBody? = some body ∧ body.EndsIn d := by
  constructor
  · intro h
    generalize hq : CallPosition.tail = q at h
    induction h with
    | root => exact Or.inl ⟨rfl, .refl⟩
    | ending _ he ih =>
      rcases ih hq with ⟨rfl, h⟩ | ⟨q, e, body, ho, hb, h⟩
      · exact Or.inl ⟨rfl, h.tail he⟩
      · exact Or.inr ⟨q, e, body, ho, hb, h.tail he⟩
    | operand => cases hq
    | body ho he => exact Or.inr ⟨_, _, _, ho, he, .refl⟩
  · rintro (⟨rfl, h⟩ | ⟨q, e, body, ho, hb, h⟩)
    · exact h.occurs
    · exact (Occurs.body ho hb).trans h.occurs

theorem Placed.endsAt (h : c.Placed p) : c.EndsAt p := fun d hd => h p d hd.occurs

namespace EndsAt

theorem ending (h : c.EndsAt p) (he : e ∈ c.endings) : e.EndsAt p :=
  fun d hd => h d (Relation.ReflTransGen.head he hd)

theorem position {r : CallPosition} (h : c.EndsAt p) (hr : c.position? = some r) : r = p :=
  h c Relation.ReflTransGen.refl r hr

theorem of_endings (hc : c.position? = none) (he : ∀ e ∈ c.endings, e.EndsAt p) : c.EndsAt p := by
  intro d hd r hr
  rcases hd.cases_head with rfl | ⟨e, hx, hd⟩
  · rw [hc] at hr
    cases hr
  · exact he e hx d hd r hr

end EndsAt
end Code

/-- What a frame goes on to ends in calls that carry the position. -/
def Frame.EndsAt (p : CallPosition) : Frame → Prop
  | .settle _ | .all .. | .any .. | .setGlobal .. | .interop .. => True
  | .branch yes no _ => yes.EndsAt p ∧ no.EndsAt p
  | .cond consequent rest default _ => consequent.EndsAt p ∧ (Code.cond rest default).EndsAt p
  | .letIn _ body _ | .seq _ body _ => body.EndsAt p
  | .trap handler position _ =>
    position = p ∧ ∀ param body, handler = .bind param body → body.EndsAt p
  | .handle _ position _ | .callee _ position _ | .args _ _ _ position _ => position = p
  | .surplus .. | .keep _ | .forms .. => False

/-- Nothing is called here in passing, and a call is handed back in tail position only. -/
def Control.EndsAt (p : CallPosition) : Control → Prop
  | .eval c _ => c.EndsAt p
  | .give (.done _) | .raise _ => True
  | .give (.bounce ..) => p = .tail
  | .run .. | .enter .. | .wait .. => False

/-- The control, once there are no frames, and until then the lowest frame. -/
inductive State.EndsAt (p : CallPosition) : State → Prop
  | control {c : Control} {w : World} (h : c.EndsAt p) : EndsAt p ⟨c, [], w⟩
  | frame {frame : Frame} (s : State) (h : frame.EndsAt p) : EndsAt p (s.onto [frame])

theorem State.EndsAt.of_stack_nil {p : CallPosition} {s : State} (h : s.EndsAt p)
    (hs : s.stack = []) : s.control.EndsAt p := by
  cases h with
  | control h => exact h
  | frame s h => simp [State.onto] at hs

namespace Machine

variable {host : Host} {mode : Mode} {p : CallPosition} {w : World} {l : Locals}

theorem endsAt_above {c : Control} {frame : Frame} (h : frame.EndsAt p) :
    State.EndsAt p ⟨c, [frame], w⟩ := .frame ⟨c, [], w⟩ h

theorem ofResult_endsAt (r : Except Error Value) : (ofResult [] w r).EndsAt p := by
  cases r <;> exact .control trivial

theorem call_endsAt (f : Function) (args : List Value) : (call [] w f args p l).EndsAt p := by
  cases p with
  | tail => exact .control rfl
  | head => exact endsAt_above trivial

theorem evalArgs_endsAt (f : Function) (done : List Value) (codes : List Code) :
    (evalArgs [] w f done codes p l).EndsAt p := by
  cases codes with
  | nil => exact call_endsAt f done.reverse
  | cons c codes => exact endsAt_above rfl

theorem evalInterop_endsAt (op : String) (done : List Value) (codes : List Code) :
    (evalInterop [] w host op done codes l).EndsAt p := by
  cases codes with
  | nil => exact ofResult_endsAt _
  | cons c codes => exact endsAt_above trivial

theorem evalCode_endsAt {c : Code} (h : c.EndsAt p) : (evalCode [] w host c l).EndsAt p := by
  cases c with
  | const | lambda | freeze | defun => exact .control trivial
  | «local» | globalValue => exact ofResult_endsAt _
  | all codes | any codes =>
    cases codes with
    | nil => exact .control trivial
    | cons c codes => exact endsAt_above trivial
  | branch test yes no => exact endsAt_above ⟨h.ending (by simp), h.ending (by simp)⟩
  | cond clauses default =>
    cases clauses with
    | nil =>
      cases default with
      | none => exact .control trivial
      | some c => exact .control (h.ending (by simp))
    | cons clause clauses =>
      refine endsAt_above ⟨h.ending (by simp), .of_endings rfl fun e he => ?_⟩
      exact h.ending (List.mem_cons_of_mem _ he)
  | letIn x value body => exact endsAt_above (h.ending (by simp))
  | seq effects last =>
    cases effects with
    | nil => exact .control (h.ending (by simp))
    | cons c effects => exact endsAt_above (h.ending (by simp))
  | trap body handler position =>
    refine endsAt_above ⟨h.position rfl, ?_⟩
    rintro param inner rfl
    exact h.ending (by simp)
  | setGlobal x value => exact endsAt_above trivial
  | call callee args position =>
    obtain rfl : position = p := h.position rfl
    cases callee with
    | global name =>
      rw [evalCode]
      split
      · exact .control trivial
      · exact evalArgs_endsAt _ [] args
    | «local» name =>
      rw [evalCode]
      split
      · exact .control trivial
      · exact evalArgs_endsAt _ [] args
    | computed head => exact endsAt_above rfl
  | interop name args =>
    rw [evalCode]
    split
    · exact .control trivial
    · exact evalInterop_endsAt _ [] args

theorem resumeFrame_endsAt {frame : Frame} (h : frame.EndsAt p) (v : Value) :
    (resumeFrame [] w host frame v).EndsAt p := by
  cases frame with
  | settle | trap | setGlobal => exact .control trivial
  | all =>
    rw [resumeFrame]
    split
    · exact .control trivial
    · exact .control (.of_endings rfl (by simp))
    · exact .control trivial
  | any =>
    rw [resumeFrame]
    split
    · exact .control trivial
    · exact .control trivial
    · exact .control (.of_endings rfl (by simp))
  | branch | cond =>
    rw [resumeFrame]
    split
    · exact .control trivial
    · exact .control h.1
    · exact .control h.2
  | letIn => exact .control h
  | seq => exact .control (.of_endings rfl (List.forall_mem_singleton.2 h))
  | handle caught position l =>
    obtain rfl : position = p := h
    rw [resumeFrame]
    split
    · exact .control trivial
    · exact call_endsAt _ _
  | callee args position l =>
    obtain rfl : position = p := h
    rw [resumeFrame]
    split
    · exact .control trivial
    · exact evalArgs_endsAt _ [] args
  | args f done rest position l =>
    obtain rfl : position = p := h
    exact evalArgs_endsAt f (v :: done) rest
  | interop op done rest l => exact evalInterop_endsAt op (v :: done) rest
  | surplus | keep | forms => exact h.elim

theorem unwind_endsAt {frame : Frame} (h : frame.EndsAt p) (e : Error) :
    (unwind [] w e frame).EndsAt p := by
  cases frame with
  | trap handler position l =>
    obtain ⟨rfl, h⟩ := h
    cases handler with
    | bind param body => exact .control (h param body rfl)
    | apply function => exact endsAt_above rfl
  | _ => exact .control trivial

/-- Whatever is done above the lowest frame, that frame stays until something comes back to it. -/
theorem move_endsAt {s : State} (hs : result? mode s = none) (h : s.EndsAt p) :
    (Machine.move host s).EndsAt p := by
  cases h with
  | @control c w h =>
    cases c with
    | eval c l => exact evalCode_endsAt h
    | give | raise => simp [result?] at hs
    | _ => exact h.elim
  | @frame frame s h =>
    obtain ⟨c, S, w⟩ := s
    cases hr : result? .async (⟨c, S, w⟩ : State) with
    | none =>
      rw [move_onto _ hr]
      exact .frame _ h
    | some o =>
      obtain rfl : S = [] := by
        cases S with
        | nil => rfl
        | cons => cases c <;> simp [result?] at hr
      cases c with
      | give step =>
        cases step with
        | done v => exact resumeFrame_endsAt h v
        | bounce f args =>
          cases frame with
          | keep => exact h.elim
          | _ => exact endsAt_above h
      | raise e => exact unwind_endsAt h e
      | _ => simp [result?] at hr

theorem Runs.endsAt {n : Nat} {s t : State} {es : List Effect} (h : Runs host mode n s es t)
    (hs : s.EndsAt p) : t.EndsAt p := by
  induction h with
  | refl => exact hs
  | move hr _ ih => exact ih (move_endsAt hr hs)

/-- Code of which no call ends it in tail position never hands a call back. -/
theorem not_bounce {c : Code} (hc : c.EndsAt .head) (fuel : Nat) (l : Locals) (w : World)
    (f : Function) (args : List Value) (w' : World) :
    drive host mode fuel ⟨.eval c l, [], w⟩ ≠ (.ok (.bounce f args), w') := by
  intro hd
  obtain ⟨es, n, t, hr, ho, -⟩ := exists_drive_eq_iff.1 ⟨fuel, hd, nofun⟩
  obtain ⟨w'', rfl⟩ : ∃ w'', t = ⟨.give (.bounce f args), [], w''⟩ := by
    obtain ⟨c, S, w''⟩ := t
    cases S <;> cases c <;> cases mode <;> simp_all [result?]
  cases (hr.endsAt (.control hc)).of_stack_nil rfl

/-- The values of codes, evaluated one after the other from left to right. -/
inductive Values (host : Host) (mode : Mode) (l : Locals) :
    List Code → World → List Effect → List Value → World → Prop
  | nil (w : World) : Values host mode l [] w [] [] w
  | cons {c : Code} {codes : List Code} {w w₁ w₂ : World} {es fs : List Effect} {v : Value}
      {vs : List Value} (h : Ends host mode ⟨.eval c l, [.settle []], w⟩ es (.ok (.done v), w₁))
      (hs : Values host mode l codes w₁ fs vs w₂) :
      Values host mode l (c :: codes) w (es ++ fs) (v :: vs) w₂

/-- The function that a callee comes to. -/
inductive Finds (host : Host) (mode : Mode) (l : Locals) :
    Callee → World → List Effect → Function → World → Prop
  | global {name : String} {w : World} {f : Function} (h : w.function? name = .ok f) :
      Finds host mode l (.global name) w [] f w
  | local {name : String} {w : World} {f : Function}
      (h : (local? l name).bind w.callable = .ok f) : Finds host mode l (.local name) w [] f w
  | computed {head : Code} {w w₁ : World} {es : List Effect} {v : Value} {f : Function}
      (h : Ends host mode ⟨.eval head l, [.settle []], w⟩ es (.ok (.done v), w₁))
      (hf : w₁.callable v = .ok f) : Finds host mode l (.computed head) w es f w₁

variable {es : List Effect} {step : Step} {w' : World}

theorem ends_iff_of_result {s : State} {o : Outcome Step} (h : result? mode s = some o)
    {r : Outcome Step × World} : Ends host mode s es r ↔ es = [] ∧ r = (o, s.world) := by
  have hs : Ends host mode s [] (o, s.world) := ⟨0, s, .refl s, h, rfl⟩
  constructor
  · intro he
    obtain ⟨rfl, rfl⟩ := Ends.unique hs he
    exact ⟨rfl, rfl⟩
  · rintro ⟨rfl, rfl⟩
    exact hs

/-- An operand has a value first, and the frame that waits for it goes on from there. -/
theorem ends_eval_iff {c : Code} (frame : Frame) (hp : frame.Performs)
    (hu : ∀ (e : Error) (w : World), unwind [] w e frame = ⟨.raise e, [], w⟩) :
    Ends host mode ⟨.eval c l, [frame], w⟩ es (.ok step, w') ↔
      ∃ v es₁ es₂ w₁, es = es₁ ++ es₂ ∧
        Ends host mode ⟨.eval c l, [.settle []], w⟩ es₁ (.ok (.done v), w₁) ∧
        Ends host mode ⟨.give (.done v), [frame], w₁⟩ es₂ (.ok step, w') := by
  constructor
  · intro h
    exact Ends.operand (s := ⟨.eval c l, [], w⟩) h hp hu
  · rintro ⟨v, es₁, es₂, w₁, rfl, h, h'⟩
    obtain ⟨n, ha⟩ := Ends.above (s := ⟨.eval c l, [], w⟩) h
    exact (ha frame [] hp).ends h'

theorem ends_evalArgs_iff {f : Function} {done : List Value} {codes : List Code} :
    Ends host mode (evalArgs [] w f done codes .tail l) es (.ok step, w') ↔
      ∃ vs, step = .bounce f (done.reverse ++ vs) ∧ Values host mode l codes w es vs w' := by
  induction codes generalizing done w es with
  | nil =>
    rw [show evalArgs [] w f done [] .tail l = ⟨.give (.bounce f done.reverse), [], w⟩ from rfl,
      ends_iff_of_result rfl]
    constructor
    · rintro ⟨rfl, ⟨⟩⟩
      exact ⟨[], by simp, .nil w⟩
    · rintro ⟨vs, rfl, ⟨⟩⟩
      simp
  | cons c codes ih =>
    have next : ∀ v w₁ es₂, Ends host mode ⟨.give (.done v), [.args f done codes .tail l], w₁⟩ es₂
        (.ok step, w') ↔ ∃ vs, step = .bounce f (done.reverse ++ v :: vs) ∧
          Values host mode l codes w₁ es₂ vs w' := by
      intro v w₁ es₂
      have hr : Runs host mode 1 ⟨.give (.done v), [.args f done codes .tail l], w₁⟩ []
          (evalArgs [] w₁ f (v :: done) codes .tail l) := .silent rfl rfl (.refl _)
      rw [hr.sameRuns.1, ih]
      simp
    rw [show evalArgs [] w f done (c :: codes) .tail l =
      ⟨.eval c l, [.args f done codes .tail l], w⟩ from rfl,
      ends_eval_iff (.args f done codes .tail l) trivial fun _ _ => rfl]
    constructor
    · rintro ⟨v, es₁, es₂, w₁, rfl, hv, h⟩
      obtain ⟨vs, rfl, hs⟩ := (next v w₁ es₂).1 h
      exact ⟨v :: vs, rfl, .cons hv hs⟩
    · rintro ⟨vs, rfl, h⟩
      cases h with
      | cons hv hs => exact ⟨_, _, _, _, rfl, hv, (next _ _ _).2 ⟨_, rfl, hs⟩⟩

/-- Once it is known whether there is a function to call, its arguments are evaluated. -/
theorem ends_found_iff {s : State} {r : Except Error Function} {args : List Code}
    (he : ∀ e, r = .error e → s = ⟨.raise e, [], w⟩)
    (hf : ∀ f, r = .ok f → s = evalArgs [] w f [] args .tail l) :
    Ends host mode s es (.ok step, w') ↔
      ∃ f vs, r = .ok f ∧ step = .bounce f vs ∧ Values host mode l args w es vs w' := by
  cases r with
  | error e =>
    rw [he e rfl, ends_iff_of_result rfl]
    simp
  | ok f =>
    rw [hf f rfl, ends_evalArgs_iff]
    simp

/-- A call in tail position comes to the function it finds and the values of its operands, and to
nothing else: it has the effects of finding and evaluating them, and none of the function's. -/
theorem ends_tail_call_iff {callee : Callee} {args : List Code} :
    Ends host mode ⟨.eval (.call callee args .tail) l, [], w⟩ es (.ok step, w') ↔
      ∃ f vs es₁ es₂ w₁, step = .bounce f vs ∧ es = es₁ ++ es₂ ∧
        Finds host mode l callee w es₁ f w₁ ∧ Values host mode l args w₁ es₂ vs w' := by
  have first : Runs host mode 1 ⟨.eval (.call callee args .tail) l, [], w⟩ []
      (evalCode [] w host (.call callee args .tail) l) := .silent rfl rfl (.refl _)
  rw [first.sameRuns.1]
  cases callee with
  | global name =>
    rw [ends_found_iff (r := w.function? name) (fun e h => by rw [evalCode, h])
      (fun f h => by rw [evalCode, h])]
    constructor
    · rintro ⟨f, vs, hf, rfl, hs⟩
      exact ⟨f, vs, [], es, w, rfl, rfl, .global hf, hs⟩
    · rintro ⟨f, vs, es₁, es₂, w₁, rfl, rfl, hf, hs⟩
      cases hf with
      | global hf => exact ⟨f, vs, hf, rfl, hs⟩
  | «local» name =>
    rw [ends_found_iff (r := (local? l name).bind w.callable) (fun e h => by rw [evalCode, h])
      (fun f h => by rw [evalCode, h])]
    constructor
    · rintro ⟨f, vs, hf, rfl, hs⟩
      exact ⟨f, vs, [], es, w, rfl, rfl, .local hf, hs⟩
    · rintro ⟨f, vs, es₁, es₂, w₁, rfl, rfl, hf, hs⟩
      cases hf with
      | «local» hf => exact ⟨f, vs, hf, rfl, hs⟩
  | computed head =>
    have next : ∀ v w₁ es₂, Ends host mode ⟨.give (.done v), [.callee args .tail l], w₁⟩ es₂
        (.ok step, w') ↔ ∃ f vs, w₁.callable v = .ok f ∧ step = .bounce f vs ∧
          Values host mode l args w₁ es₂ vs w' := by
      intro v w₁ es₂
      have hr : Runs host mode 1 ⟨.give (.done v), [.callee args .tail l], w₁⟩ []
          (resumeFrame [] w₁ host (.callee args .tail l) v) := .silent rfl rfl (.refl _)
      rw [hr.sameRuns.1]
      exact ends_found_iff (fun e h => by rw [resumeFrame, h]) (fun f h => by rw [resumeFrame, h])
    rw [show evalCode [] w host (.call (.computed head) args .tail) l =
      ⟨.eval head l, [.callee args .tail l], w⟩ from rfl,
      ends_eval_iff (.callee args .tail l) trivial fun _ _ => rfl]
    constructor
    · rintro ⟨v, es₁, es₂, w₁, rfl, hv, h⟩
      obtain ⟨f, vs, hf, rfl, hs⟩ := (next v w₁ es₂).1 h
      exact ⟨f, vs, es₁, es₂, w₁, rfl, rfl, .computed hv hf, hs⟩
    · rintro ⟨f, vs, es₁, es₂, w₁, rfl, rfl, hf, hs⟩
      cases hf with
      | computed hv hf => exact ⟨_, es₁, es₂, w₁, rfl, hv, (next _ _ _).2 ⟨f, vs, hf, rfl, hs⟩⟩

end Machine

open Machine in
/-- A call carries tail position if it ends the whole, where that stands in tail position, or the
body of a function, and head position everywhere else. So code compiled in head position never
hands a call back, whereas a function's body hands back every call that it ends in: it comes to the
function and the values of the operands, and goes into nothing on the way to it. -/
theorem compile_positions {defined : String → Bool} {s : Scope} {v : Value} {c : Code}
    (h : compile defined s v = .ok c) :
    (∀ q d, c.Occurs s.position q d → ∀ r, d.position? = some r → r = q) ∧
    (∀ d, c.Occurs s.position .tail d ↔ (s.position = .tail ∧ c.EndsIn d) ∨
      ∃ q e body, c.Occurs s.position q e ∧ e.functionBody? = some body ∧ body.EndsIn d) ∧
    (s.position = .head → ∀ (host : Host) mode fuel l w f args w',
      drive host mode fuel ⟨.eval c l, [], w⟩ ≠ (.ok (.bounce f args), w')) ∧
    ∀ q d body, c.Occurs s.position q d → d.functionBody? = some body →
      (∀ callee args position, body.EndsIn (.call callee args position) →
        ∀ (host : Host) mode l w es step w',
          Ends host mode ⟨.eval (.call callee args position) l, [], w⟩ es (.ok step, w') ↔
            ∃ f vs es₁ es₂ w₁, step = .bounce f vs ∧ es = es₁ ++ es₂ ∧
              Finds host mode l callee w es₁ f w₁ ∧ Values host mode l args w₁ es₂ vs w') ∧
      ∀ (host : Host) mode n l w es t, Runs host mode n ⟨.eval body l, [], w⟩ es t →
        t.stack = [] → ∀ f args, t.control ≠ .run f args ∧ t.control ≠ .enter f args := by
  have hp : Yields (Code.Placed s.position) (fun _ => True) (compile defined s v) :=
    (compile_compiles s v).imp fun _ => Compiles.placed
  rw [h] at hp
  refine ⟨hp, fun d => Code.occurs_tail_iff, ?_, ?_⟩
  · intro hs host mode
    rw [hs] at hp
    exact not_bounce hp.endsAt
  · intro q d body ho hb
    have hbody : body.EndsAt .tail := (hp.occurs (.body ho hb)).endsAt
    constructor
    · intro callee args position hcall host mode l w es step w'
      obtain rfl : position = .tail := hbody _ hcall _ rfl
      exact ends_tail_call_iff
    · intro host mode n l w es t hr hn f args
      have ht := (hr.endsAt (.control hbody)).of_stack_nil hn
      constructor
      · intro hf
        rw [hf] at ht
        exact ht
      · intro hf
        rw [hf] at ht
        exact ht

open Machine in
/-- In head position the call of `f` in `(f (lambda X (X X)))` is made in place, while the call of
`X` is handed back. -/
theorem compile_positions_lambda :
    compile (fun _ => false) Scope.toplevel.inHead
      (.cons 0 (.symbol "f") (.cons 1
        (.cons 2 (.symbol "lambda") (.cons 3 (.symbol "X") (.cons 4
          (.cons 5 (.symbol "X") (.cons 6 (.symbol "X") .empty)) .empty))) .empty)) =
      .ok (.call (.global "f")
        [.lambda "lambda" "X" (.call (.local "X") [.local "X"] .tail)] .head) ∧
    ∀ (host : Host) mode fuel l w f args w', drive host mode fuel ⟨.eval (.call (.global "f")
      [.lambda "lambda" "X" (.call (.local "X") [.local "X"] .tail)] .head) l, [], w⟩ ≠
        (.ok (.bounce f args), w') := by
  have h : compile (fun _ => false) Scope.toplevel.inHead
      (.cons 0 (.symbol "f") (.cons 1
        (.cons 2 (.symbol "lambda") (.cons 3 (.symbol "X") (.cons 4
          (.cons 5 (.symbol "X") (.cons 6 (.symbol "X") .empty)) .empty))) .empty)) =
      .ok (.call (.global "f")
        [.lambda "lambda" "X" (.call (.local "X") [.local "X"] .tail)] .head) := by cbv
  exact ⟨h, (compile_positions h).2.2.1 rfl⟩

end KLambda
