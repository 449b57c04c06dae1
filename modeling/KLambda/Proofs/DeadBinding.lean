import KLambda.Proofs.Flattening
import KLambda.Proofs.Grounded
import KLambda.Proofs.Mentions
import KLambda.Proofs.Unreferenced

/-!
Bindings that nothing refers to. A `let` whose name does not occur free in its body is compiled to
the value and then the body, without binding anything. The body becomes the same code either way,
and that code never looks the name up, so all that the binding could change is what closures
capture. The value is evaluated once and first, as it would be for a binding, unless evaluating it
does nothing.
-/
namespace KLambda

open Machine

section

variable {defined : String → Bool} {s : Scope} {x : String} {body value : Value}

/-- The code of a form looks up no name that does not occur in the form. -/
theorem not_free_of_mentions (hx : x ≠ "_") (hm : body.mentions x = false) {c : Code}
    (hc : compile defined s body = .ok c) : ¬ c.Free x := by
  intro hf
  let t : Scope := { s with locals := s.locals.filter (· != x) }
  have ht : compile defined t body = .ok c := by
    rw [← hc]
    refine compile_agree body ⟨rfl, rfl, rfl, ?_, fun y hy => ?_⟩
    · simp [t, Scope.isLocal, Ne.symm hx]
    · have hn : y ≠ x := by
        rintro rfl
        simp [hm] at hy
      simp [t, Scope.isLocal, hn]
  have hmem : x ∈ t.locals := (compile_scoped ht).mem_of_free hf
  simp [t] at hmem

theorem Code.sequence_of_pure {v : Code} (h : v.isPure = true) (c : Code) :
    Code.sequence [v] c = c := by
  simp [Code.sequence, h]

theorem Code.sequence_of_not_pure {v : Code} (h : v.isPure = false) (c : Code) :
    Code.sequence [v] c = .seq [v] c := by
  simp [Code.sequence, h]

/-- A binding that nothing refers to is left out. -/
theorem compile_let_unused (hx : x ≠ "_") (hm : body.mentions x = false) {form : Value}
    (hf : form.items? = some [.symbol "let", .symbol x, value, body]) :
    compile defined s form = (do
      let v ← compile defined s.inHead value
      let c ← compile defined (s.withLocal x) body
      return .sequence [v] c) := by
  have hb : Yields (fun c => Code.finish s c = c) (fun _ => True) (compile defined s body) :=
    compile_finished s body
  rw [compile_of_items? hf,
    show Construct.ofList (.symbol "let") [.symbol x, value, body] =
      .letIn (.symbol x) value body from rfl, compile_withLocal hx hm]
  cases hv : compile defined s.inHead value with
  | error e => simp [Construct.compiled, Value.binder, hv, bind, Except.bind, Except.map]
  | ok v =>
    cases hc : compile defined s body with
    | error e =>
      simp [Construct.compiled, Value.binder, hv, hc, hm, bind, Except.bind, Except.map]
    | ok c =>
      rw [hc] at hb
      have hs : Code.finish s (Code.sequence [v] c) = Code.sequence [v] c :=
        Code.finish_sequence hb
      simp [Construct.compiled, Value.binder, hv, hc, hm, bind, Except.bind, Except.map, pure,
        Except.pure, hs]

end

/-- Code that takes one move without an effect to come to a value, whatever is going on, and at most
adds a function body to the world. -/
def Code.Harmless (c : Code) (l : Locals) : Prop :=
  ∀ (host : Host) (mode : Mode) (S : List Frame) (w : World), ∃ v w',
    Runs host mode 1 ⟨.eval c l, S, w⟩ [] ⟨.give (.done v), S, w'⟩ ∧ w.Extends w'

/-- The same world with more function bodies. -/
def World.Adds (w u : World) : Prop :=
  ∃ extra, u = { w with heap := { w.heap with bodies := w.heap.bodies ++ extra } }

namespace World.Adds

theorem refl (w : World) : w.Adds w := ⟨#[], by simp⟩

theorem closure (w : World) (name : String) (params : List String) (c : Code) (l : Locals) :
    w.Adds (Machine.closure w name params c l).2 :=
  ⟨#[.closure w.runtime params c l.visible],
    by simp [Machine.closure, World.makeFunction, Heap.function]⟩

end World.Adds

theorem World.Extends.of_adds {w u : World} (h : w.Adds u) : w.Extends u := by
  obtain ⟨extra, rfl⟩ := h
  exact ⟨extra, w.reports, rfl, rfl⟩

/-- Where its locals are bound, pure code comes to a value and adds at most a function. -/
theorem Code.exists_runs_of_pure {v : Code} {l : Locals} (hp : v.isPure = true)
    (hs : v.Scoped l.names) (host : Host) (mode : Mode) (S : List Frame) (w : World) :
    ∃ u w', Runs host mode 1 ⟨.eval v l, S, w⟩ [] ⟨.give (.done u), S, w'⟩ ∧ w.Adds w' := by
  cases v with
  | const k => exact ⟨k.value, w, .silent rfl rfl (.refl _), .refl w⟩
  | «local» y =>
    cases hs with
    | «local» hy =>
      obtain ⟨a, -, ha⟩ := Locals.exists_find_of_mem hy
      refine ⟨a, w, .silent rfl rfl ?_, .refl w⟩
      have hm : move host ⟨.eval (.local y) l, S, w⟩ = ⟨.give (.done a), S, w⟩ := by
        simp [move, step, evalCode, local?, ha, ofResult]
      rw [hm]
      exact .refl _
  | lambda name param body =>
    exact ⟨_, _, .silent rfl rfl (.refl _), .closure w name [param] body l⟩
  | freeze name body => exact ⟨_, _, .silent rfl rfl (.refl _), .closure w name [] body l⟩
  | _ => cases hp

/-- Pure code is harmless where its locals are bound. -/
theorem Code.harmless_of_pure {v : Code} {names : List String} {l : Locals} (hp : v.isPure = true)
    (hs : v.Scoped names) (hl : names ⊆ l.names) : v.Harmless l := by
  intro host mode S w
  obtain ⟨u, w', hr, hw⟩ := exists_runs_of_pure hp (hs.mono hl) host mode S w
  exact ⟨u, w', hr, .of_adds hw⟩

namespace Machine

variable {host : Host} {mode : Mode} {s t s' t' : State} {a b : Frame} {S T : List Frame}
  {es : List Effect} {r : Outcome Step × World}

/-- A run ends with an error, or comes to a value and ends as the state that is made of it does. -/
def EndsAfter (host : Host) (mode : Mode) (s : State) (next : Value → World → State)
    (es : List Effect) (r : Outcome Step × World) : Prop :=
  (∃ e, r.1 = .error e) ∧ Ends host mode s es r ∨
    ∃ v w es₁ es₂, es = es₁ ++ es₂ ∧ Ends host mode s es₁ (.ok (.done v), w) ∧
      Ends host mode (next v w) es₂ r

theorem ends_onto_iff_endsAfter {next : Value → World → State} (ha : a.Performs) (hp : Passes a)
    (hn : ∀ v w, SameRuns host mode ⟨.give (.done v), [a], w⟩ (next v w)) :
    Ends host mode (s.onto [a]) es r ↔ EndsAfter host mode (s.onto [.settle []]) next es r := by
  rw [ends_onto_iff ha hp, EndsAfter]
  simp only [(hn _ _).1]

variable {l : Locals} {w : World} {v c : Code} {x : String}

theorem sameRuns_letIn : SameRuns host mode ⟨.eval (.letIn x v c) l, S, w⟩
    ⟨.eval v l, .letIn x c l :: S, w⟩ := sameRuns_move rfl rfl rfl

theorem sameRuns_letIn_raise {e : Error} : SameRuns host mode
    ⟨.raise e, .letIn x c l :: S, w⟩ ⟨.raise e, S, w⟩ := sameRuns_move rfl rfl rfl

theorem sameRuns_letIn_next {u : Value} : SameRuns host mode
    ⟨.give (.done u), .letIn x c l :: S, w⟩ ⟨.eval c ((x, u) :: l), S, w⟩ :=
  sameRuns_move rfl rfl rfl

theorem sameRuns_seq_last {u : Value} : SameRuns host mode
    ⟨.give (.done u), .seq [] c l :: S, w⟩ ⟨.eval c l, S, w⟩ :=
  sameRuns_seq_next.trans sameRuns_seq_nil

/-- A binding evaluates its value and then its body with the value bound. -/
theorem ends_letIn_iff : Ends host mode ⟨.eval (.letIn x v c) l, [], w⟩ es r ↔
    EndsAfter host mode ⟨.eval v l, [.settle []], w⟩
      (fun u w' => ⟨.eval c ((x, u) :: l), [], w'⟩) es r := by
  rw [sameRuns_letIn.1]
  exact @ends_onto_iff_endsAfter host mode ⟨.eval v l, [], w⟩ _ es r _ trivial (fun _ _ => rfl)
    fun u w' => sameRuns_letIn_next

/-- A sequence of two evaluates the first and then the second. -/
theorem ends_seq_iff : Ends host mode ⟨.eval (.seq [v] c) l, [], w⟩ es r ↔
    EndsAfter host mode ⟨.eval v l, [.settle []], w⟩ (fun _ w' => ⟨.eval c l, [], w'⟩) es r := by
  rw [sameRuns_seq_cons.1]
  exact @ends_onto_iff_endsAfter host mode ⟨.eval v l, [], w⟩ _ es r _ trivial (fun _ _ => rfl)
    fun u w' => sameRuns_seq_last

/-- The second state has the effects that the first one has, and where that comes to an end, comes
to a related one. -/
structure Follows (next : State → State) (mode : Mode)
    (Q : Outcome Step × World → Outcome Step × World → Prop) (s t : State) : Prop where
  ends {es : List Effect} {r : Outcome Step × World} (h : Ends next mode s es r) :
    ∃ r', Ends next mode t es r' ∧ Q r r'
  emits {es : List Effect} (h : Emits next mode s es) : Emits next mode t es

namespace Follows

variable {Q : Outcome Step × World → Outcome Step × World → Prop}

theorem of_sameRuns (hq : ∀ r, Q r r) (h : SameRuns host mode s t) : Follows host mode Q s t where
  ends {es r} he := ⟨r, (h.1 es r).1 he, hq r⟩
  emits he := (h.2 _).1 he

theorem congr (h : Follows host mode Q s t) (hs : SameRuns host mode s' s)
    (ht : SameRuns host mode t' t) : Follows host mode Q s' t' where
  ends he := by
    obtain ⟨r', hr', hq⟩ := h.ends ((hs.1 _ _).1 he)
    exact ⟨r', (ht.1 _ _).2 hr', hq⟩
  emits he := (ht.2 _).2 (h.emits ((hs.2 _).1 he))

/-- It is enough that what may come back from above two frames is followed. -/
theorem onto (hq : ∀ r, Q r r) (ha : a.Performs) (hb : b.Performs)
    (h : ∀ k es s', Above host mode k s es s' → s'.Returned →
      Follows host mode Q (s'.onto (a :: S)) (s'.onto (b :: T))) :
    Follows host mode Q (s.onto (a :: S)) (s.onto (b :: T)) where
  ends := by
    rintro es ⟨o, w⟩ ⟨n, t, hr, ho, hw⟩
    rcases hr.above ha with ⟨s', rfl, hs⟩ | ⟨k, m, es₁, es₂, s', rfl, hs, hd, ht⟩
    · obtain rfl : s'.world = w := hw
      exact ⟨_, hs.ends ho hb, hq _⟩
    · obtain ⟨r', hr', hq'⟩ := (h k es₁ s' hs hd).ends ⟨m, t, ht, ho, hw⟩
      exact ⟨r', (hs b T hb).ends hr', hq'⟩
  emits := by
    rintro es ⟨n, t, hr⟩
    rcases hr.above ha with ⟨s', rfl, hs⟩ | ⟨k, m, es₁, es₂, s', rfl, hs, hd, ht⟩
    · exact ⟨n, _, hs b T hb⟩
    · exact (hs b T hb).emits ((h k es₁ s' hs hd).emits ⟨m, t, ht⟩)

theorem shed (h : Follows host mode Q s t) (hs : Lossless host mode s) (ht : Lossless host mode t) :
    Follows (Machine.shed host mode) mode Q s t where
  ends he := by
    obtain ⟨r', hr', hq⟩ := h.ends (hs.ends_iff.1 he)
    exact ⟨r', ht.ends_iff.2 hr', hq⟩
  emits he := ht.emits_iff.2 (h.emits (hs.emits_iff.1 he))

end Follows

/-- The second state has the effects that the first one has, and comes to the same where that ends,
in a world that is related. -/
structure Tracks (host : Host) (mode : Mode) (Q : World → World → Prop) (s t : State) : Prop where
  ends {es : List Effect} {r : Outcome Step × World} (h : Ends host mode s es r) :
    ∃ r', Ends host mode t es r' ∧ r'.1 = r.1 ∧ Q r.2 r'.2
  emits {es : List Effect} (h : Emits host mode s es) : Emits host mode t es

namespace Tracks

variable {Q : World → World → Prop}

theorem iff_follows : Tracks host mode Q s t ↔
    Follows host mode (fun r r' => r'.1 = r.1 ∧ Q r.2 r'.2) s t :=
  ⟨fun h => ⟨h.ends, h.emits⟩, fun h => ⟨h.ends, h.emits⟩⟩

theorem of_sameRuns (hq : ∀ w, Q w w) (h : SameRuns host mode s t) : Tracks host mode Q s t :=
  iff_follows.2 (.of_sameRuns (fun r => ⟨rfl, hq r.2⟩) h)

theorem congr (h : Tracks host mode Q s t) (hs : SameRuns host mode s' s)
    (ht : SameRuns host mode t' t) : Tracks host mode Q s' t' :=
  iff_follows.2 ((iff_follows.1 h).congr hs ht)

theorem onto (hq : ∀ w, Q w w) (ha : a.Performs) (hb : b.Performs)
    (h : ∀ k es s', Above host mode k s es s' → s'.Returned →
      Tracks host mode Q (s'.onto (a :: S)) (s'.onto (b :: T))) :
    Tracks host mode Q (s.onto (a :: S)) (s.onto (b :: T)) :=
  iff_follows.2 (.onto (fun r => ⟨rfl, hq r.2⟩) ha hb fun k es s' hs hd =>
    iff_follows.1 (h k es s' hs hd))

end Tracks

/-- States that track each other, in worlds that are the same but for what closures capture under
names that their code does not look up. -/
def SameButCaptured (host : Host) (mode : Mode) (s t : State) : Prop :=
  Tracks host mode Kinship.free.Worlds s t ∧
    Tracks host mode (fun w w' => Kinship.free.Worlds w' w) t s

namespace SameButCaptured

theorem of_sameRuns (h : SameRuns host mode s t) : SameButCaptured host mode s t :=
  ⟨.of_sameRuns (.refl _) h, .of_sameRuns (.refl _) h.symm⟩

theorem congr (h : SameButCaptured host mode s t) (hs : SameRuns host mode s' s)
    (ht : SameRuns host mode t' t) : SameButCaptured host mode s' t' :=
  ⟨h.1.congr hs ht, h.2.congr ht hs⟩

theorem onto (ha : a.Performs) (hb : b.Performs)
    (h : ∀ k es s', Above host mode k s es s' → s'.Returned →
      SameButCaptured host mode (s'.onto (a :: S)) (s'.onto (b :: T))) :
    SameButCaptured host mode (s.onto (a :: S)) (s.onto (b :: T)) :=
  ⟨.onto (.refl _) ha hb fun k es s' hs hd => (h k es s' hs hd).1,
    .onto (.refl _) hb ha fun k es s' hs hd => (h k es s' hs hd).2⟩

/-- A sound state and one that is akin to it. -/
theorem of_akin {runtime : Nat} (hh : host.Sound runtime) (ho : host.Opaque)
    (hs : s.Sound runtime) (hk : Kinship.free.States s t) : SameButCaptured host mode s t := by
  have ha : ∀ n es u u', Runs host mode n s es u → Kinship.free.States u u' →
      Kinship.free.Apt u u' :=
    fun n es u u' hr => Kinship.free_apt (hr.sound hh hs)
  refine ⟨⟨?_, ?_⟩, ?_, ?_⟩
  · rintro es r ⟨n, u, hr, hres, hw⟩
    obtain ⟨u', hr', hu⟩ := hk.runs ho ha hr
    exact ⟨(r.1, u'.world), ⟨n, u', hr', (hu.result? mode).trans hres, rfl⟩, rfl, hw ▸ hu.world⟩
  · rintro es ⟨n, u, hr⟩
    obtain ⟨u', hr', -⟩ := hk.runs ho ha hr
    exact ⟨n, u', hr'⟩
  · rintro es r ⟨n, u', hr', hres, hw⟩
    obtain ⟨u, hr, hu⟩ := hk.runs_inv ho ha hr'
    have hres' : result? mode u = some r.1 := (hu.result? mode).symm.trans hres
    exact ⟨(r.1, u.world), ⟨n, u, hr, hres', rfl⟩, rfl, hw ▸ hu.world⟩
  · rintro es ⟨n, u', hr'⟩
    obtain ⟨u, hr, -⟩ := hk.runs_inv ho ha hr'
    exact ⟨n, u, hr⟩

end SameButCaptured

/-- Binding a name that the body does not look up changes nothing but what closures capture. -/
theorem sameButCaptured_letIn {runtime : Nat} (hh : host.Sound runtime) (ho : host.Opaque)
    (hs : State.Sound runtime ⟨.eval (.letIn x v c) l, [.settle []], w⟩) (hx : ¬ c.Free x) :
    SameButCaptured host mode ⟨.eval (.letIn x v c) l, [.settle []], w⟩
      ⟨.eval (.seq [v] c) l, [.settle []], w⟩ := by
  refine SameButCaptured.congr ?_ sameRuns_letIn sameRuns_seq_cons
  refine @SameButCaptured.onto host mode ⟨.eval v l, [], w⟩ (.letIn x c l) (.seq [] c l)
    [.settle []] [.settle []] trivial trivial fun k es s' hk hd => ?_
  cases hd with
  | raise e w' =>
    exact .of_sameRuns (sameRuns_letIn_raise.trans sameRuns_seq_raise.symm)
  | done u w' =>
    refine SameButCaptured.congr ?_ sameRuns_letIn_next sameRuns_seq_last
    have hv : State.Sound runtime ⟨.eval v l, [.letIn x c l, .settle []], w⟩ := move_sound hh hs
    have hu := (hk (.letIn x c l) [.settle []] trivial).sound hh hv
    refine .of_akin hh ho (move_sound hh hu) ⟨⟨rfl, fun y hy => ?_⟩, ?_, .refl _ w'⟩
    · have hne : x ≠ y := by
        rintro rfl
        exact hx hy
      simp [Table.find, hne]
    · exact .cons (.settle [] []) .nil

end Machine

/-- A binding whose name does not occur in its body. The body is compiled to the same code or the
same error whether or not the name is bound, and the code does not look it up. The `let` is compiled
to its value and its body one after the other. If the value is pure, only the body is left, and
evaluating the value would have done nothing and could not have failed. In any case the value
followed by the body evaluates the value once, as the binding does, and goes on with the same code,
which comes to the same with the name bound and without. -/
theorem dead_binding_sound {x : String} {body : Value} (hx : x ≠ "_")
    (hm : body.mentions x = false) (defined : String → Bool) (s : Scope) :
    compile defined (s.withLocal x) body = compile defined s body ∧
    (∀ c, compile defined s body = .ok c → ¬ c.Free x) ∧
    ∀ form value, form.items? = some [.symbol "let", .symbol x, value, body] →
      compile defined s form = (do
        let v ← compile defined s.inHead value
        let c ← compile defined (s.withLocal x) body
        return .sequence [v] c) ∧
      ∀ v c, compile defined s.inHead value = .ok v → compile defined (s.withLocal x) body = .ok c →
        (v.isPure = true → Code.sequence [v] c = c ∧ ∀ l, s.locals ⊆ l.names → v.Harmless l) ∧
        (v.isPure = false → Code.sequence [v] c = .seq [v] c) ∧
        (∀ (host : Host) mode l w es r,
          (Ends host mode ⟨.eval (.seq [v] c) l, [], w⟩ es r ↔
            EndsAfter host mode ⟨.eval v l, [.settle []], w⟩
              (fun _ w' => ⟨.eval c l, [], w'⟩) es r) ∧
          (Ends host mode ⟨.eval (.letIn x v c) l, [], w⟩ es r ↔
            EndsAfter host mode ⟨.eval v l, [.settle []], w⟩
              (fun u w' => ⟨.eval c ((x, u) :: l), [], w'⟩) es r)) ∧
        ∀ runtime host mode w l, host.Sound runtime → host.Opaque → w.Live host runtime →
          s.locals ⊆ l.names → (∀ u ∈ l.values, u.Sound runtime w.heap) →
          SameButCaptured host mode ⟨.eval (.letIn x v c) l, [.settle []], w⟩
            ⟨.eval (.seq [v] c) l, [.settle []], w⟩ := by
  have hsame : compile defined (s.withLocal x) body = compile defined s body :=
    compile_withLocal hx hm
  refine ⟨hsame, fun c hc => not_free_of_mentions hx hm hc, ?_⟩
  intro form value hf
  refine ⟨compile_let_unused hx hm hf, ?_⟩
  intro v c hv hc
  have hvs : v.Scoped s.locals := by
    have hy : Yields (Code.Scoped s.locals) Error.Syntactic (compile defined s.inHead value) :=
      compile_yields s.inHead value
    rwa [hv] at hy
  have hcs : c.Scoped (x :: s.locals) := by
    have hy : Yields (Code.Scoped (x :: s.locals)) Error.Syntactic
        (compile defined (s.withLocal x) body) := compile_yields (s.withLocal x) body
    rwa [hc] at hy
  refine ⟨fun hp => ⟨Code.sequence_of_pure hp c, fun l hl => Code.harmless_of_pure hp hvs hl⟩,
    fun hp => Code.sequence_of_not_pure hp c,
    fun host mode l w es r => ⟨ends_seq_iff, ends_letIn_iff⟩, ?_⟩
  intro runtime host mode w l hh ho hw hl hu
  have hcode : (Code.letIn x v c).Scoped l.names :=
    .letIn (hvs.mono hl) (hcs.mono (List.cons_subset_cons x hl))
  have hs : State.Sound runtime ⟨.eval (.letIn x v c) l, [.settle []], w⟩ := by
    refine ⟨hw.sound hh, hcode, hu, ?_⟩
    exact List.forall_mem_singleton.2 ⟨trivial, by simp [Frame.roots, Locals.values]⟩
  exact sameButCaptured_letIn hh ho hs (not_free_of_mentions hx hm (hsame ▸ hc))

/-- In `(let X (f) (lambda Y Y))` the call of `f` is kept and its value is not bound. -/
theorem dead_binding_sound_call :
    let call : Code := .call (.global "f") [] .head
    let code : Code := .lambda "lambda" "Y" (.local "Y")
    let body := Value.list [.symbol "lambda", .symbol "Y", .symbol "Y"]
    let form := Value.list [.symbol "let", .symbol "X", .list [.symbol "f"], body]
    body.mentions "X" = false ∧
    compile (fun _ => false) .toplevel form = .ok (.seq [call] code) ∧
    Host.Sound 0 .echo ∧ Host.Opaque .echo ∧ World.Live .echo 0 (World.create .empty {} 0 0) ∧
    SameButCaptured .echo .sync ⟨.eval (.letIn "X" call code) [], [.settle []],
        World.create .empty {} 0 0⟩
      ⟨.eval (.seq [call] code) [], [.settle []], World.create .empty {} 0 0⟩ := by
  intro call code body form
  have hm : body.mentions "X" = false := by cbv
  have hv : compile (fun _ => false) Scope.toplevel.inHead (.list [.symbol "f"]) = .ok call := by
    cbv
  have hc : compile (fun _ => false) (Scope.toplevel.withLocal "X") body = .ok code := by cbv
  have hw : World.Live .echo 0 (World.create .empty {} 0 0) := .create .empty {} 0
  obtain ⟨-, -, h⟩ := dead_binding_sound (by decide) hm (fun _ => false) .toplevel
  obtain ⟨hform, hcode⟩ := h form (.list [.symbol "f"]) rfl
  obtain ⟨-, hseq, -, hsame⟩ := hcode call code hv hc
  refine ⟨hm, ?_, Host.sound_echo 0, Host.opaque_echo, hw,
    hsame 0 .echo .sync _ [] (Host.sound_echo 0) Host.opaque_echo hw (by simp [Scope.toplevel])
      (by simp [Locals.values])⟩
  rw [hform, hv, hc, ← hseq rfl]
  rfl

end KLambda
