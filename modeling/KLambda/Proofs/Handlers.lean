import KLambda.Proofs.Dropped
import KLambda.Proofs.HeadPosition
import KLambda.Proofs.Shadowed

/-!
The two ways in which trapped errors are handled. A handler that is written as a `lambda` is
compiled to a part of the code around it, and any other to code for a function, which is then called
with the error. For a handler that is written as a `lambda` both ways have the same outcome: what is
protected is evaluated first, its value is the value of the whole, and after an error the body of
the handler is evaluated with the error bound, where no error is trapped any more.
-/
namespace KLambda

open Machine

section

variable {defined : String → Bool} {s : Scope} {p handler b form : Value} {x : String}
  {cp cb cf : Code}

theorem Value.handler?_of_items (hi : handler.items? = some [.symbol "lambda", .symbol x, b]) :
    handler.handler? = some (x, b) := by
  simp [Value.handler?, hi]

theorem compile_trap_eq (hf : form.items? = some [.symbol "trap-error", p, handler]) :
    compile defined s form = (do
      let body ← compile defined s.inHead p
      let handler ← compileHandler defined s handler
      return .trap body handler s.position) := by
  rw [compile_of_items? hf,
    show Construct.ofList (.symbol "trap-error") [p, handler] = .trap p handler from rfl,
    Construct.compiled]
  cases compile defined s.inHead p with
  | error e => rfl
  | ok cp =>
    cases compileHandler defined s handler with
    | error e => rfl
    | ok h => simp [bind, Except.bind, pure, Except.pure, Except.map, Code.finish, Code.isPure]

/-- A handler that is written as a `lambda` becomes a part of the code. -/
theorem compile_trap_bind (hi : handler.items? = some [.symbol "lambda", .symbol x, b])
    (hp : compile defined s.inHead p = .ok cp) (hb : compile defined (s.withLocal x) b = .ok cb)
    (hf : form.items? = some [.symbol "trap-error", p, handler]) :
    compile defined s form = .ok (.trap cp (.bind x cb) s.position) := by
  rw [compile_trap_eq hf, hp, compileHandler_some (Value.handler?_of_items hi), hb]
  rfl

/-- Written in a `do`, the same handler is a function that is computed. -/
theorem compile_trap_apply {d : Value}
    (hi : handler.items? = some [.symbol "lambda", .symbol x, b])
    (hp : compile defined s.inHead p = .ok cp) (hh : compile defined s.inHead handler = .ok cf)
    (hd : d.items? = some [.symbol "do", handler])
    (hf : form.items? = some [.symbol "trap-error", p, d]) :
    compile defined s form = .ok (.trap cp (.apply cf) s.position) := by
  have hnot : d.handler? = none := by simp [Value.handler?, hd]
  have hform : handler.isForm "do" = false := by
    obtain ⟨mark, t, rfl⟩ := Value.exists_cons_of_items? hi
    rfl
  have hc : compile defined s.inHead d = .ok cf := by
    rw [compile_do hd (Nat.le_refl 1), Value.splice, if_neg (by simp [hform]), Value.splice,
      compileSequence, hh]
    rfl
  rw [compile_trap_eq hf, hp, compileHandler_none hnot, hc]
  rfl

/-- The function that a `lambda` makes has the code that the inline handler has, with its last call
settled in place where the handler stands in head position. -/
theorem compile_handler_code (hs : s.statement = false)
    (hi : handler.items? = some [.symbol "lambda", .symbol x, b])
    (hb : compile defined (s.withLocal x) b = .ok cb)
    (hh : compile defined s.inHead handler = .ok cf) :
    ∃ name body, cf = .lambda name x body ∧
      (s.position = .tail ∧ cb = body ∨ s.position = .head ∧ cb = body.inHead) := by
  rw [compile_of_items? hi,
    show Construct.ofList (.symbol "lambda") [.symbol x, b] = .lambda (.symbol x) b from rfl,
    Construct.compiled] at hh
  cases hbody : compile defined (s.lambda x) b with
  | error e => simp [Value.binder, hbody, bind, Except.bind, Except.map] at hh
  | ok body =>
    obtain ⟨rfl⟩ : Code.lambda (s.closureName "lambda") x body = cf := by
      simpa [Value.binder, hbody, bind, Except.bind, Except.map, pure, Except.pure] using hh
    refine ⟨_, body, rfl, ?_⟩
    obtain ⟨locals, position, statement, owner⟩ := s
    obtain rfl : statement = false := hs
    cases position with
    | tail => exact Or.inl ⟨rfl, Except.ok.inj (hb.symm.trans hbody)⟩
    | head =>
      have hx : compile defined (Scope.inHead ⟨x :: locals, .tail, false, owner⟩) b = _ :=
        compile_inHead defined ⟨x :: locals, .tail, false, owner⟩ b rfl
      have hbody' : compile defined ⟨x :: locals, .tail, false, owner⟩ b = .ok body := hbody
      rw [hbody'] at hx
      exact Or.inr ⟨rfl, Except.ok.inj (hb.symm.trans hx)⟩

end

namespace Machine

variable {host : Host} {mode : Mode} {S : List Frame} {l : Locals} {w : World} {name x : String}
  {cp cb body : Code} {position : CallPosition} {e : Error} {v : Value}

/-- The world after an error has been caught. -/
def caught (w : World) : World := { w with heap := { w.heap with marks := w.heap.marks + 1 } }

/-- What is bound to the name that a handler has for the error. -/
def caughtError (w : World) (e : Error) : Value := .error w.heap.marks e.message

theorem sameRuns_trap {handler : Handler} : SameRuns host mode
    ⟨.eval (.trap cp handler position) l, S, w⟩ ⟨.eval cp l, .trap handler position l :: S, w⟩ :=
  sameRuns_move rfl rfl rfl

/-- A value passes a trap by. -/
theorem sameRuns_trap_value {handler : Handler} : SameRuns host mode
    ⟨.give (.done v), .trap handler position l :: S, w⟩ ⟨.give (.done v), S, w⟩ :=
  sameRuns_move rfl rfl rfl

/-- An error is bound for an inline handler, whose body takes the place of the trap. -/
theorem sameRuns_trap_bind : SameRuns host mode
    ⟨.raise e, .trap (.bind x cb) position l :: S, w⟩
    ⟨.eval cb ((x, caughtError w e) :: l), S, caught w⟩ := sameRuns_move rfl rfl rfl

/-- Running a closure of one parameter evaluates its body with what it could see. -/
theorem sameRuns_run_closure (name x : String) (body : Code) (l : Locals) (w : World) :
    SameRuns host mode
      ⟨.run (closure w name [x] body l).1 [v], S, (closure w name [x] body l).2⟩
      ⟨.eval body ((x, v) :: l), S, (closure w name [x] body l).2⟩ := by
  have hbody : (closure w name [x] body l).2.heap.body (closure w name [x] body l).1 =
      .closure w.runtime [x] body l.visible := by
    simp [closure, World.makeFunction, Heap.function, Heap.body]
  have hr : (closure w name [x] body l).2.runtime = w.runtime := rfl
  have hrun : SameRuns host mode
      ⟨.run (closure w name [x] body l).1 [v], S, (closure w name [x] body l).2⟩
      ⟨.enter (closure w name [x] body l).1 [v], S, (closure w name [x] body l).2⟩ :=
    sameRuns_move rfl rfl rfl
  have henter : SameRuns host mode
      ⟨.enter (closure w name [x] body l).1 [v], S, (closure w name [x] body l).2⟩
      ⟨.eval body ((x, v) :: l.visible), S, (closure w name [x] body l).2⟩ := by
    refine sameRuns_move rfl ?_ ?_
    · simp [effect?, entryEffect?, hbody]
    · simp [move, step, enterFunction, hbody, hr, bindParams, Locals.visible]
  exact hrun.trans (henter.trans (sameRuns_of_visible (by simp [Control.visible])))

/-- A frame that settles in place does not matter where the result is settled anyway. -/
theorem sameRuns_settle (c : Control) (l : Locals) (w : World) :
    SameRuns host mode ⟨c, [.settle l, .settle []], w⟩ ⟨c, [.settle []], w⟩ :=
  (inPlace host mode).swap.sameRuns (fun _ _ h => h.symm) (fun _ _ h => h.symm)
    (.same c (.settle l (.bottom [] [])) w)

/-- A caught error is handed to a function of one parameter, in either position. -/
theorem sameRuns_trap_apply
    (hc : position = .tail ∧ cb = body ∨ position = .head ∧ cb = body.inHead) :
    SameRuns host mode
      ⟨.raise e, [.trap (.apply (.lambda name x body)) position l, .settle []], w⟩
      ⟨.eval cb ((x, caughtError w e) :: l), [.settle []],
        (closure (caught w) name [x] body l).2⟩ := by
  have make : SameRuns host mode
      ⟨.raise e, [.trap (.apply (.lambda name x body)) position l, .settle []], w⟩
      (call [.settle []] (closure (caught w) name [x] body l).2
        (closure (caught w) name [x] body l).1 [caughtError w e] position l) :=
    (sameRuns_move rfl rfl rfl).trans
      ((sameRuns_move rfl rfl rfl).trans (sameRuns_move rfl rfl rfl))
  refine make.trans ?_
  rcases hc with ⟨rfl, rfl⟩ | ⟨rfl, rfl⟩
  · exact (sameRuns_move rfl rfl rfl).trans (sameRuns_run_closure name x cb l (caught w))
  · exact (sameRuns_run_closure name x body l (caught w)).trans
      ((sameRuns_settle _ l _).trans (sameRuns_inHead body _ (.bottom [] []) _))

/-- Both handlers have the same outcome after the same error. -/
theorem sameOutcome_raised (hh : host.Natural) (hw : w.Grounded) (hl : ∀ v ∈ l.values, w.Holds v)
    (hc : position = .tail ∧ cb = body ∨ position = .head ∧ cb = body.inHead) :
    SameOutcome host mode w.heap.bodies.size
      ⟨.raise e, [.trap (.bind x cb) position l, .settle []], w⟩
      ⟨.raise e, [.trap (.apply (.lambda name x body)) position l, .settle []], w⟩ := by
  have hgrows : w.Grows (caught w) := .of_eq hw rfl rfl rfl rfl
  have hl' : ∀ v ∈ Locals.values ((x, caughtError w e) :: l), (caught w).Holds v :=
    List.forall_mem_cons.2 ⟨trivial, hl⟩
  have hadded := World.Adds.closure (caught w) name [x] body l
  exact (sameOutcome_of_extends hh hgrows.grounded (.of_adds hadded) cb hl').congr
    sameRuns_trap_bind (sameRuns_trap_apply hc)

/-- Whatever is protected, both handlers have the same outcome. -/
theorem sameOutcome_trap (hh : host.Natural) (hg : host.Grounded) (hw : w.Grounded)
    (hl : ∀ v ∈ l.values, w.Holds v) (cp : Code)
    (hc : position = .tail ∧ cb = body ∨ position = .head ∧ cb = body.inHead) :
    SameOutcome host mode w.heap.bodies.size
      ⟨.eval (.trap cp (.bind x cb) position) l, [.settle []], w⟩
      ⟨.eval (.trap cp (.apply (.lambda name x body)) position) l, [.settle []], w⟩ := by
  have hs : State.Grounded ⟨.eval cp l, [], w⟩ := ⟨hw, hl, by simp⟩
  refine SameOutcome.congr ?_ sameRuns_trap sameRuns_trap
  refine SameOutcome.onto (s := ⟨.eval cp l, [], w⟩) hg trivial trivial hs fun k es s' hk hd => ?_
  cases hd with
  | done v w' =>
    exact (sameRuns_trap_value.trans sameRuns_trap_value.symm).sameOutcome _
  | raise e w' =>
    have hgrows : w.Grows w' := hk.grows hg hs
    exact sameOutcome_raised hh hgrows.grounded (fun v hv => hgrows.holds (hl v hv)) hc

/-- What raises an error where it is settled raises it above every frame. -/
theorem Runs.above_raise {s : State} {n : Nat} {es : List Effect}
    (h : Runs host mode n (s.onto [.settle []]) es ⟨.raise e, [], w⟩) :
    ∃ k, Above host mode k s es ⟨.raise e, [], w⟩ := by
  have raised : Ends host mode ⟨.raise e, [], w⟩ [] (.error e, w) := ⟨0, _, .refl _, rfl, rfl⟩
  rcases h.above trivial with ⟨s', ht, -⟩ | ⟨k, m, es₁, es₂, s', rfl, hk, hd, ht⟩
  · have hstack : [] = s'.stack ++ [.settle []] := congrArg State.stack ht
    simp at hstack
  · have hend := ht.ends raised
    cases hd with
    | done v w' =>
      obtain ⟨-, hr⟩ := (ends_settled v [] w').unique hend
      cases hr
    | raise e' w' =>
      obtain ⟨hes, hr⟩ := (ends_raised (fun _ _ => rfl) e' w').unique hend
      obtain ⟨rfl, -⟩ := List.append_eq_nil_iff.1 hes.symm
      cases hr
      exact ⟨k, by simpa using hk⟩

/-- A value of what is protected is the value of the whole. -/
theorem ends_trap_value {handler : Handler} {es : List Effect} {w' : World}
    (h : Ends host mode ⟨.eval cp l, [.settle []], w⟩ es (.ok (.done v), w')) :
    Ends host mode ⟨.eval (.trap cp handler position) l, [.settle []], w⟩ es
      (.ok (.done v), w') := by
  obtain ⟨n, hn⟩ := Ends.above (s := ⟨.eval cp l, [], w⟩) h
  have hvalue : Ends host mode ⟨.give (.done v), [.trap handler position l, .settle []], w'⟩ []
      (.ok (.done v), w') := (sameRuns_trap_value.1 _ _).2 (ends_settled v [] w')
  have hend := (hn (.trap handler position l) [.settle []] trivial).ends hvalue
  rw [List.append_nil] at hend
  exact (sameRuns_trap.1 es _).2 hend

/-- An error that what is protected raises is handled after everything that came before it. -/
theorem runs_trap_raise {n : Nat} {es : List Effect} {w' : World}
    (h : Runs host mode n ⟨.eval cp l, [.settle []], w⟩ es ⟨.raise e, [], w'⟩) :
    ∃ m, Runs host mode m ⟨.eval (.trap cp (.bind x cb) position) l, [.settle []], w⟩ es
      ⟨.eval cb ((x, caughtError w' e) :: l), [.settle []], caught w'⟩ := by
  obtain ⟨k, hk⟩ := Runs.above_raise (s := ⟨.eval cp l, [], w⟩) h
  have hbody := hk (.trap (.bind x cb) position l) [.settle []] trivial
  have hcaught : Runs host mode 1
      ⟨.raise e, [.trap (.bind x cb) position l, .settle []], w'⟩ []
      ⟨.eval cb ((x, caughtError w' e) :: l), [.settle []], caught w'⟩ := .silent rfl rfl (.refl _)
  have hrun := hbody.trans hcaught
  rw [List.append_nil] at hrun
  exact ⟨k + 1 + 1, .silent rfl rfl hrun⟩

end Machine

/-- A handler that is written as a `lambda`, compiled as a part of a `trap-error` or as a function
of its own. Unless bytes are lost that a stream holds back, both have the same outcome: the same
value or error, the same effects in the same order and the same world, but for the closure that only
one of them makes. If what is protected has a value, both have it at once, in the same world. If it
raises an error, the body of the handler is evaluated with a new error bound that has the text of
the one raised, and there is no trap around it any more. -/
theorem handlers_agree {host : Host} (hh : host.Natural) (hg : host.Grounded) (mode : Mode)
    {defined : String → Bool} {s : Scope} (hs : s.statement = false) {p handler b : Value}
    {x : String} (hi : handler.items? = some [.symbol "lambda", .symbol x, b]) {cp cb cf : Code}
    (hp : compile defined s.inHead p = .ok cp) (hb : compile defined (s.withLocal x) b = .ok cb)
    (hf : compile defined s.inHead handler = .ok cf) {w : World} (hw : w.Grounded) {l : Locals}
    (hl : ∀ v ∈ l.values, w.Holds v) :
    (∀ form, form.items? = some [.symbol "trap-error", p, handler] →
      compile defined s form = .ok (.trap cp (.bind x cb) s.position)) ∧
    (∀ d form, d.items? = some [.symbol "do", handler] →
      form.items? = some [.symbol "trap-error", p, d] →
      compile defined s form = .ok (.trap cp (.apply cf) s.position)) ∧
    SameUnlessLost host mode w.heap.bodies.size
      ⟨.eval (.trap cp (.bind x cb) s.position) l, [.settle []], w⟩
      ⟨.eval (.trap cp (.apply cf) s.position) l, [.settle []], w⟩ ∧
    (Lossless host mode ⟨.eval cp l, [.settle []], w⟩ →
      (∀ trap, Lossless host mode ⟨.eval (.trap cp trap s.position) l, [.settle []], w⟩ →
        ∀ es v w', Ends (shed host mode) mode ⟨.eval cp l, [.settle []], w⟩ es (.ok (.done v), w') →
          Ends (shed host mode) mode ⟨.eval (.trap cp trap s.position) l, [.settle []], w⟩ es
            (.ok (.done v), w')) ∧
      (Lossless host mode ⟨.eval (.trap cp (.bind x cb) s.position) l, [.settle []], w⟩ →
        ∀ n es e w',
          Runs (shed host mode) mode n ⟨.eval cp l, [.settle []], w⟩ es ⟨.raise e, [], w'⟩ →
          ∃ m, Runs (shed host mode) mode m
            ⟨.eval (.trap cp (.bind x cb) s.position) l, [.settle []], w⟩ es
            ⟨.eval cb ((x, .error w'.heap.marks e.message) :: l), [.settle []],
              { w' with heap := { w'.heap with marks := w'.heap.marks + 1 } }⟩)) := by
  obtain ⟨name, body, rfl, hc⟩ := compile_handler_code hs hi hb hf
  refine ⟨fun form => compile_trap_bind hi hp hb, fun d form => compile_trap_apply hi hp hf,
    (sameOutcome_trap hh hg hw hl cp hc).unlessLost, fun hcp => ⟨?_, ?_⟩⟩
  · intro trap htrap es v w' he
    exact htrap.ends_iff.2 (ends_trap_value (hcp.ends_iff.1 he))
  · intro hbind n es e w' hr
    obtain ⟨m, hm⟩ := runs_trap_raise (hcp.runs_iff.1 hr)
    exact ⟨m, hbind.runs_iff.2 hm⟩

/-- An error that is raised at once, and a handler that asks for its text. -/
theorem handlers_agree_simple_error :
    let p := Value.list [.symbol "simple-error", .str "oops"]
    let b := Value.list [.symbol "str", .symbol "E"]
    let handler := Value.list [.symbol "lambda", .symbol "E", b]
    let cp : Code := .call (.global "simple-error") [.const (.str "oops")] .head
    let cb : Code := .call (.global "str") [.local "E"] .tail
    handler.items? = some [.symbol "lambda", .symbol "E", b] ∧
    compile (fun _ => false) .toplevel (.list [.symbol "trap-error", p, handler]) =
      .ok (.trap cp (.bind "E" cb) .tail) ∧
    Host.Natural .echo ∧ Host.Grounded .echo ∧ (World.create .empty {} 0 0).Grounded ∧
    (World.create .empty {} 0 0).Unbuffered ∧
    SameOutcome (shed .echo .sync) .sync (World.create .empty {} 0 0).heap.bodies.size
      ⟨.eval (.trap cp (.bind "E" cb) .tail) [], [.settle []], World.create .empty {} 0 0⟩
      ⟨.eval (.trap cp (.apply (.lambda "lambda" "E" cb)) .tail) [], [.settle []],
        World.create .empty {} 0 0⟩ := by
  intro p b handler cp cb
  have hp : compile (fun _ => false) Scope.toplevel.inHead p = .ok cp := by cbv
  have hb : compile (fun _ => false) (Scope.toplevel.withLocal "E") b = .ok cb := by cbv
  have hf : compile (fun _ => false) Scope.toplevel.inHead handler =
      .ok (.lambda "lambda" "E" cb) := by cbv
  have hs : Scope.toplevel.statement = false := rfl
  have hi : handler.items? = some [.symbol "lambda", .symbol "E", b] := rfl
  have hw : (World.create .empty {} 0 0).Grounded := .create .empty {} 0 0
  have hu : (World.create .empty {} 0 0).Unbuffered := .create_empty 0 0
  have hl : ∀ v ∈ Locals.values [], (World.create .empty {} 0 0).Holds v := by
    simp [Locals.values]
  have lossless : ∀ c, Lossless .echo .sync ⟨.eval c [], [.settle []], .create .empty {} 0 0⟩ :=
    fun c => lossless_of_unbuffered Host.unbuffered_echo hu .sync
  obtain ⟨hform, -, hsame, -⟩ :=
    handlers_agree Host.natural_echo Host.grounded_echo .sync hs hi hp hb hf hw hl
  exact ⟨hi, hform _ rfl, Host.natural_echo, Host.grounded_echo, hw, hu,
    hsame (lossless _) (lossless _)⟩

/-- A function lets go of its locals before its last call, and an inline handler in head position
does not: `(let X (value s) (do (set s y) X (read-byte (value r))))` after an error. -/
theorem not_handlers_agree :
    ¬ ∀ (defined : String → Bool) (s : Scope) (p handler b : Value) (x : String) (cp cb cf : Code)
      (w : World) (l : Locals), s.statement = false →
      handler.items? = some [.symbol "lambda", .symbol x, b] →
      compile defined s.inHead p = .ok cp → compile defined (s.withLocal x) b = .ok cb →
      compile defined s.inHead handler = .ok cf → w.Grounded → (∀ v ∈ l.values, w.Holds v) →
      SameOutcome (Console.next .sync) .sync w.heap.bodies.size
        ⟨.eval (.trap cp (.bind x cb) s.position) l, [.settle []], w⟩
        ⟨.eval (.trap cp (.apply cf) s.position) l, [.settle []], w⟩ := by
  intro h
  let p := Value.list [.symbol "f"]
  let b := Value.list [.symbol "let", .symbol "X", .list [.symbol "value", .symbol "s"],
    .list [.symbol "do", .list [.symbol "set", .symbol "s", .symbol "y"], .symbol "X",
      .list [.symbol "read-byte", .list [.symbol "value", .symbol "r"]]]]
  let handler := Value.list [.symbol "lambda", .symbol "E", b]
  let cp : Code := .call (.global "f") [] .head
  let body (position : CallPosition) : Code := .letIn "X" (.globalValue "s")
    (.seq [.setGlobal "s" (.const (.symbol "y"))]
      (.call (.global "read-byte") [.globalValue "r"] position))
  let w := World.withheld [("s", .writer), ("r", .reader)]
  have hp : compile (fun _ => true) Scope.toplevel.inHead p = .ok cp := by cbv
  have hb : compile (fun _ => true) (Scope.toplevel.inHead.withLocal "E") b = .ok (body .head) := by
    cbv
  have hf : compile (fun _ => true) Scope.toplevel.inHead handler =
      .ok (.lambda "lambda" "E" (body .tail)) := by cbv
  have hw : w.Grounded := .withheld (by simp [Value.writer, Value.reader, Value.Grounded])
  have inline : (settle (Console.next .sync) .sync 40
      (.eval (.trap cp (.bind "E" (body .head)) .head) []) w).1.atEnd? = some true := by
    decide +kernel
  have apart : (settle (Console.next .sync) .sync 40
      (.eval (.trap cp (.apply (.lambda "lambda" "E" (body .tail))) .head) []) w).1.atEnd? =
        some false := by
    decide +kernel
  have same := h _ Scope.toplevel.inHead p handler b "E" _ _ _ w [] rfl rfl hp hb hf hw
    (by simp [Locals.values])
  cases same.atEnd?_eq inline apart

end KLambda
