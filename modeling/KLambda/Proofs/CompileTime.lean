import KLambda.Proofs.Above
import KLambda.Proofs.Builtin
import KLambda.Proofs.Inlining
import KLambda.Proofs.Trampoline

/-!
The moment of compilation. Code that was compiled earlier calls `value` where code that is compiled
later may read the value at once. The call comes to what the read comes to, a few moves later, so
the two run side by side, also where they make closures whose code differs in the same way.
-/
namespace KLambda

open Machine

/-- Codes of which the second reads global values where the first calls `value`, in the same
locals. -/
def Kinship.reads : Kinship where
  code c l c' l' := c.Reads c' ∧ l' = l
  closure _ c l c' l' := c.Reads c' ∧ l' = l
  code_refl c _ := ⟨.refl c, rfl⟩
  closure_refl _ c _ := ⟨.refl c, rfl⟩

namespace Kinship

variable {c c' : Code} {l : Locals}

theorem reads_list {cs cs' : List Code} (hl : cs.length = cs'.length)
    (h : ∀ p ∈ cs.zip cs', p.1.Reads p.2) :
    List.Forall₂ (fun c c' => reads.code c l c' l) cs cs' :=
  forall₂_of_pairs hl fun p hp => ⟨h p hp, rfl⟩

theorem reads_clauses {cs cs' : List (Code × Code)} (hl : cs.length = cs'.length)
    (ht : ∀ p ∈ cs.zip cs', p.1.1.Reads p.2.1) (hc : ∀ p ∈ cs.zip cs', p.1.2.Reads p.2.2) :
    List.Forall₂ (fun a b => a.1.Reads b.1 ∧ a.2.Reads b.2) cs cs' :=
  forall₂_of_pairs hl fun p hp => ⟨ht p hp, hc p hp⟩

/-- The parts are related, unless the second code is a read that the first one calls for. -/
theorem reads_parts (h : c.Reads c')
    (hn : ∀ x position, c = .call (.global "value") [.const (.symbol x)] position →
      c' ≠ .globalValue x) : reads.Parts c l c' l := by
  cases h with
  | const k => exact .const k l l
  | «local» x => exact .local rfl
  | all hl h =>
    cases forall₂_of_pairs hl h with
    | nil => exact .allNil l l
    | cons hc hs =>
      obtain ⟨hl, h⟩ := pairs_of_forall₂ hs
      exact .allCons ⟨hc, rfl⟩ ⟨.all hl h, rfl⟩
  | any hl h =>
    cases forall₂_of_pairs hl h with
    | nil => exact .anyNil l l
    | cons hc hs =>
      obtain ⟨hl, h⟩ := pairs_of_forall₂ hs
      exact .anyCons ⟨hc, rfl⟩ ⟨.any hl h, rfl⟩
  | branch ht hy hno => exact .branch ⟨ht, rfl⟩ ⟨hy, rfl⟩ ⟨hno, rfl⟩
  | cond hl ht hc =>
    cases reads_clauses hl ht hc with
    | nil => exact .condNone l l
    | cons ha hs =>
      obtain ⟨hl, h⟩ := pairs_of_forall₂ hs
      exact .condCons ⟨ha.1, rfl⟩ ⟨ha.2, rfl⟩
        ⟨.cond hl (fun p hp => (h p hp).1) fun p hp => (h p hp).2, rfl⟩
  | condDefault hl ht hc hd =>
    cases reads_clauses hl ht hc with
    | nil => exact .condSome ⟨hd, rfl⟩
    | cons ha hs =>
      obtain ⟨hl, h⟩ := pairs_of_forall₂ hs
      exact .condCons ⟨ha.1, rfl⟩ ⟨ha.2, rfl⟩
        ⟨.condDefault hl (fun p hp => (h p hp).1) (fun p hp => (h p hp).2) hd, rfl⟩
  | letIn x hv hb => exact .letIn x ⟨hv, rfl⟩ fun _ => ⟨hb, rfl⟩
  | seq hl h hc =>
    cases forall₂_of_pairs hl h with
    | nil => exact .seqNil ⟨hc, rfl⟩
    | cons ha hs =>
      obtain ⟨hl, h⟩ := pairs_of_forall₂ hs
      exact .seqCons ⟨ha, rfl⟩ ⟨.seq hl h hc, rfl⟩
  | lambda name param hb => exact .lambda name param ⟨hb, rfl⟩
  | freeze name hb => exact .freeze name ⟨hb, rfl⟩
  | trapBind x position hb hi => exact .trapBind x position ⟨hb, rfl⟩ fun _ => ⟨hi, rfl⟩
  | trapApply position hb hf => exact .trapApply position ⟨hb, rfl⟩ ⟨hf, rfl⟩
  | defun name params hb => exact .defun name params ⟨hb, rfl⟩
  | @globalValue x _ => exact .globalValue x l l
  | setGlobal x hv => exact .setGlobal x ⟨hv, rfl⟩
  | callLocal x position hl h => exact .callLocal position rfl (reads_list hl h)
  | callGlobal x position hl h => exact .callGlobal x position (reads_list hl h)
  | callComputed position hc hl h => exact .callComputed position ⟨hc, rfl⟩ (reads_list hl h)
  | interop name hl h => exact .interop name (reads_list hl h)
  | @lookup callee x position _ hx =>
    subst hx
    exact absurd rfl (hn x position rfl)

theorem reads_apt {s s' : State} (h : reads.States s s')
    (hn : ∀ x position l,
      s.control = .eval (.call (.global "value") [.const (.symbol x)] position) l →
        s'.control ≠ .eval (.globalValue x) l) : reads.Apt s s' where
  eval {c c' l l'} hc hc' := by
    have hk := h.control
    rw [hc, hc'] at hk
    obtain ⟨hr, rfl⟩ := hk
    refine reads_parts hr fun x position hx hx' => ?_
    subst hx hx'
    exact hn x position _ hc hc'
  enter _ _ h := by
    obtain ⟨hr, rfl⟩ := h
    exact ⟨hr, rfl⟩

theorem frames_unkept {K : Kinship} {S S' : List Frame} (h : List.Forall₂ K.Frames S S') :
    List.Forall₂ K.Frames (unkept S) (unkept S') := by
  induction h with
  | nil => exact .nil
  | cons hf hs ih =>
    cases hf with
    | keep => exact ih
    | _ => exact .cons (by constructor <;> assumption) hs

end Kinship

namespace Machine

variable {host : Host} {mode : Mode} {S : List Frame} {w : World}

/-- What comes back goes past the frames that keep something. -/
theorem runs_ofResult_unkept (r : Except Error Value) :
    ∃ n, Runs host mode n (ofResult S w r) [] (ofResult (unkept S) w r) := by
  induction S with
  | nil => exact ⟨0, .refl _⟩
  | cons frame S ih =>
    cases frame with
    | keep vs =>
      obtain ⟨n, hn⟩ := ih
      refine ⟨n + 1, ?_⟩
      cases r <;> exact .silent rfl rfl hn
    | _ => exact ⟨0, .refl _⟩

theorem runs_globalValue (x : String) (l : Locals) :
    ∃ n, Runs host mode (n + 1) ⟨.eval (.globalValue x) l, S, w⟩ []
      (ofResult (unkept S) w (w.value? x)) := by
  obtain ⟨n, hn⟩ := @runs_ofResult_unkept host mode S w (w.value? x)
  exact ⟨n, .silent rfl rfl hn⟩

/-- The call of `value` comes to what the value is. -/
theorem runs_run_value {f : Function} (ha : f.arity = some 1)
    (hb : w.heap.body f = .primitive w.runtime .value) (x : String) :
    Runs host mode 2 ⟨.run f [.symbol x], S, w⟩ [.primitive .value [.symbol x]]
      (ofResult S w (w.value? x)) := by
  have hrun : move host ⟨.run f [.symbol x], S, w⟩ = ⟨.enter f [.symbol x], S, w⟩ := by
    simp [move, step, runFunction, ha]
  have henter : move host ⟨.enter f [.symbol x], S, w⟩ = ofResult S w (w.value? x) := by
    simp only [move, step, enterFunction, hb, if_true]
    rfl
  have heff : effect? ⟨.enter f [.symbol x], S, w⟩ = some (.primitive .value [.symbol x]) := by
    simp [effect?, entryEffect?, hb]
  have h : Runs host mode 1 ⟨.enter f [.symbol x], S, w⟩ _ _ := Runs.one rfl
  rw [heff, henter] at h
  refine .silent rfl rfl ?_
  rw [hrun]
  exact h

/-- Looking a value up by a call, in either position, comes to what reading it comes to. -/
theorem runs_call_value (hw : w.Provides .value) (hS : unkept S ≠ []) (x : String)
    (position : CallPosition) (l : Locals) :
    ∃ n, Runs host mode (n + 1)
      ⟨.eval (.call (.global "value") [.const (.symbol x)] position) l, S, w⟩
      [.primitive .value [.symbol x]] (ofResult (unkept S) w (w.value? x)) := by
  obtain ⟨f, hf, ha, hb⟩ := hw
  have hfun : w.function? "value" = .ok f := by
    have hf : w.functions.get? "value" = some f := hf
    simp [World.function?, hf]
  have hcall : Runs host mode 3
      ⟨.eval (.call (.global "value") [.const (.symbol x)] position) l, S, w⟩ []
      (call S w f [.symbol x] position l) := by
    refine .silent rfl rfl ?_
    have hm : move host ⟨.eval (.call (.global "value") [.const (.symbol x)] position) l, S, w⟩ =
        ⟨.eval (.const (.symbol x)) l, .args f [] [] position l :: S, w⟩ := by
      simp [move, step, evalCode, hfun, evalArgs]
    rw [hm]
    exact .silent rfl rfl (.silent rfl rfl (.refl _))
  cases position with
  | tail =>
    obtain ⟨n, hn⟩ := @runs_bounce host mode S w f [.symbol x] hS
    exact ⟨3 + (n + 1) + 1, (hcall.trans hn).trans (runs_run_value ha hb x)⟩
  | head =>
    obtain ⟨n, hn⟩ := @runs_ofResult_unkept host mode S w (w.value? x)
    have hs : Runs host mode (n + 1) (ofResult (.settle l :: S) w (w.value? x)) []
        (ofResult (unkept S) w (w.value? x)) := by
      cases hr : w.value? x <;> rw [hr] at hn <;> exact .silent rfl rfl hn
    exact ⟨3 + 2 + n, (hcall.trans (runs_run_value ha hb x)).trans hs⟩

end Machine

/-- The lowest frame settles what comes back to it, unless it has come back already. -/
def State.Based (s : State) : Prop := s.Returned ∨ ∃ S l, s.stack = S ++ [.settle l]

namespace State.Based

variable {host : Host} {mode : Mode} {s t : State}

theorem move (h : s.Based) (hs : result? mode s = none) : (Machine.move host s).Based := by
  rcases h with h | ⟨S, l, hS⟩
  · cases h <;> simp [result?] at hs
  obtain ⟨c, _, w⟩ := s
  obtain rfl : _ = S ++ [.settle l] := hS
  cases hr : result? .async ⟨c, S, w⟩ with
  | none =>
    have hm : Machine.move host ⟨c, S ++ [.settle l], w⟩ = _ := move_onto [.settle l] hr
    rw [hm]
    exact Or.inr ⟨_, l, rfl⟩
  | some o =>
    cases S with
    | cons frame S => cases c <;> simp [result?] at hr
    | nil =>
      cases c with
      | give step =>
        cases step with
        | done v => exact Or.inl (.done v w)
        | bounce f args => exact Or.inr ⟨[], l, rfl⟩
      | raise e => exact Or.inl (.raise e w)
      | _ => simp [result?] at hr

theorem runs {n : Nat} {es : List Effect} (hr : Runs host mode n s es t) (h : s.Based) :
    t.Based := by
  induction hr with
  | refl => exact h
  | move hs _ ih => exact ih (h.move hs)

theorem unkept_ne_nil {c : Code} {l : Locals} (h : s.Based) (hs : s.control = .eval c l) :
    unkept s.stack ≠ [] := by
  rcases h with h | ⟨S, l, hS⟩
  · cases h <;> cases hs
  · rw [hS]
    clear hS
    induction S with
    | nil => simp [unkept]
    | cons frame S ih => cases frame <;> simp [unkept, ih]

end State.Based

/-- The call of `value` for a name, which reads a value and changes nothing. -/
def Effect.isRead : Effect → Bool
  | .primitive .value [.symbol _] => true
  | _ => false

/-- The second state does what the first one does, but may read global values where the first calls
`value`, which stands for the primitive for as long as the first runs. -/
structure Reading (host : Host) (mode : Mode) (s t : State) : Prop where
  akin : Kinship.reads.States s t
  based : s.Based
  provides : s.world.Provides .value
  spares {es : List Effect} (he : Emits host mode s es) : ∀ e ∈ es, e.Spares "value"

variable {host : Host} {mode : Mode}

theorem Reading.runs (ho : host.Opaque) {s t s' t' : State} (h : Reading host mode s t) {n : Nat}
    {es : List Effect} (hr : Runs host mode n s es s') (hk : Kinship.reads.States s' t') :
    Reading host mode s' t' where
  akin := hk
  based := h.based.runs hr
  provides := h.provides.runs ho hr (h.spares ⟨n, s', hr⟩)
  spares he e hm := h.spares (hr.emits he) e (List.mem_append_right es hm)

/-- Two runs side by side: they take one move each, or one calls for a value and the other reads
it. -/
def reading (ho : host.Opaque) (mode : Mode) : Pursuit host mode where
  states := Reading host mode
  effects es es' := es'.filter (!·.isRead) = es.filter (!·.isRead)
  results r r' := r'.1 = r.1 ∧ Kinship.reads.Worlds r.2 r'.2
  append h h' := by simp [h, h']
  left h := by
    rw [List.filter_append] at h
    obtain ⟨es', fs', rfl, he, -⟩ := List.filter_eq_append_iff.1 h
    exact ⟨es', fs', rfl, he⟩
  right h := by
    rw [List.filter_append] at h
    obtain ⟨es', fs', rfl, he, -⟩ := List.filter_eq_append_iff.1 h.symm
    exact ⟨es', fs', rfl, he.symm⟩
  progress {s t} h := by
    have hres := h.akin.result? mode
    cases hs : result? mode s with
    | some o =>
      rw [hs] at hres
      exact Or.inl ⟨[], [], (o, s.world), (o, t.world), ⟨0, s, .refl s, hs, rfl⟩,
        ⟨0, t, .refl t, hres, rfl⟩, rfl, rfl, h.akin.world⟩
    | none =>
      rw [hs] at hres
      refine Or.inr ?_
      by_cases hx : ∃ x position l,
          s.control = .eval (.call (.global "value") [.const (.symbol x)] position) l ∧
            t.control = .eval (.globalValue x) l
      · obtain ⟨x, position, l, hc, hc'⟩ := hx
        have hne := h.based.unkept_ne_nil hc
        obtain ⟨c, S, w⟩ := s
        obtain ⟨c', S', w'⟩ := t
        subst hc hc'
        obtain ⟨n, hn⟩ := @runs_call_value host mode S w h.provides hne x position l
        obtain ⟨m, hm⟩ := @runs_globalValue host mode S' w' x l
        have hv : w'.value? x = w.value? x := by
          obtain ⟨bs, rfl, -⟩ := h.akin.world
          rfl
        rw [hv] at hm
        refine ⟨n, m, _, _, _, _, hn, hm, rfl, h.runs ho hn ?_⟩
        exact Kinship.states_ofResult (Kinship.frames_unkept h.akin.stack) h.akin.world _
      · have ha : Kinship.reads.Apt s t := by
          refine Kinship.reads_apt h.akin fun x position l hc hc' => hx ⟨x, position, l, hc, hc'⟩
        have hr : Runs host mode 1 s _ _ := Runs.one hs
        have hr' : Runs host mode 1 t _ _ := Runs.one hres
        rw [h.akin.effect? ha] at hr'
        exact ⟨0, 0, _, _, _, _, hr, hr', rfl, h.runs ho hr (h.akin.move ho ha)⟩

/-- Two states whose runs come to the same, whether or not they end: to the same value or error and
the same effects in the same order, apart from calls that only read global values, in worlds that
are the same apart from such reads in the code of closures. -/
structure SameButReads (host : Host) (mode : Mode) (s t : State) : Prop where
  ends {es : List Effect} {r : Outcome Step × World} (h : Ends host mode s es r) :
    ∃ es' r', Ends host mode t es' r' ∧ es'.filter (!·.isRead) = es.filter (!·.isRead) ∧
      r'.1 = r.1 ∧ Kinship.reads.Worlds r.2 r'.2
  ends_inv {es' : List Effect} {r' : Outcome Step × World} (h : Ends host mode t es' r') :
    ∃ es r, Ends host mode s es r ∧ es'.filter (!·.isRead) = es.filter (!·.isRead) ∧
      r'.1 = r.1 ∧ Kinship.reads.Worlds r.2 r'.2
  emits {es : List Effect} (h : Emits host mode s es) :
    ∃ es', Emits host mode t es' ∧ es'.filter (!·.isRead) = es.filter (!·.isRead)
  emits_inv {es' : List Effect} (h : Emits host mode t es') :
    ∃ es, Emits host mode s es ∧ es'.filter (!·.isRead) = es.filter (!·.isRead)

theorem Reading.sameButReads (ho : host.Opaque) {s t : State} (h : Reading host mode s t) :
    SameButReads host mode s t where
  ends := (reading ho mode).ends h
  ends_inv := (reading ho mode).swap.ends h
  emits := (reading ho mode).emits h
  emits_inv := (reading ho mode).swap.emits h

/-- Runs of code and of what it is compiled to later keep side by side. -/
theorem Reading.start (w : World) {c c' : Code} (h : c.Reads c') (hw : w.Provides .value)
    (l : Locals) (hs : ∀ es, Emits host mode ⟨.eval c l, [.settle []], w⟩ es →
      ∀ e ∈ es, e.Spares "value") :
    Reading host mode ⟨.eval c l, [.settle []], w⟩ ⟨.eval c' l, [.settle []], w⟩ where
  akin := ⟨⟨h, rfl⟩, .cons (.settle [] []) .nil, .refl _ w⟩
  based := Or.inr ⟨[], [], rfl⟩
  provides := hw
  spares he := hs _ he

theorem World.Evolves.exists_value {w w' : World} (h : w.Evolves w') {x : String}
    (hx : w.values.contains x = true) : ∃ v, w'.value? x = .ok v := by
  obtain ⟨v, hv⟩ := Option.isSome_iff_exists.1 (h.values x hx)
  exact ⟨v, by simp only [World.value?, hv]⟩

/-- When a form is compiled does not matter. A form that is compiled in a world, and again after any
evaluations that do not define `value`, is an error both times or neither time. Run in the later
world with the same locals, as long as that does not define `value` either, both codes come to the
same, if no local named `value` is called for a value that has been defined in between. And a read
that was compiled in a world finds its value wherever evaluations lead from there. -/
theorem compile_moment_irrelevant (ho : host.Opaque) {w₀ w₁ : World} (hv : w₀.Provides .value)
    (hr : w₀.Reaches host (Effect.Spares "value") w₁) (s : Scope) (form : Value) :
    (∀ e, compile w₀.values.contains s form = .error e ↔
      compile w₁.values.contains s form = .error e) ∧
    ∀ c₀, compile w₀.values.contains s form = .ok c₀ →
      (∃ c₁, compile w₁.values.contains s form = .ok c₁ ∧
        (c₀.Unshadowed (fun x => w₀.values.contains x = false ∧ w₁.values.contains x = true)
            s.position →
          ∀ mode l, (∀ es, Emits host mode ⟨.eval c₀ l, [.settle []], w₁⟩ es →
              ∀ e ∈ es, e.Spares "value") →
            SameButReads host mode ⟨.eval c₀ l, [.settle []], w₁⟩
              ⟨.eval c₁ l, [.settle []], w₁⟩)) ∧
      ∀ q x, c₀.Occurs s.position q (.globalValue x) →
        ∀ w, w₀.Reaches host (fun _ => True) w →
          ∃ v, w.value? x = .ok v ∧
            ∀ l S, move host ⟨.eval (.globalValue x) l, S, w⟩ = ⟨.give (.done v), S, w⟩ := by
  have hc := compile_later hr.evolves.values s form
  refine ⟨hc.error_iff, fun c₀ hc₀ => ⟨?_, fun q x hx w hw => ?_⟩⟩
  · rw [hc₀] at hc
    obtain ⟨c₁, hc₁, hlater⟩ := hc.exists_ok
    refine ⟨c₁, hc₁, fun hu mode l hs => ?_⟩
    exact (Reading.start w₁ (hlater.reads hu) (hv.reaches ho hr) l hs).sameButReads ho
  · obtain ⟨v, hx⟩ := hw.evolves.exists_value (defined_of_occurs hc₀ hx)
    refine ⟨v, hx, fun l S => ?_⟩
    simp only [move, step, evalCode, hx]
    rfl

/-- Effects on the way to an end are among those at the end. -/
theorem Machine.Ends.append {s : State} {es fs : List Effect} {r : Outcome Step × World}
    (h : Ends host mode s fs r) (he : Emits host mode s es) : ∃ gs, fs = es ++ gs := by
  obtain ⟨n, t, ht, hr, -⟩ := h
  obtain ⟨k, u, hu⟩ := he
  obtain ⟨d, rfl⟩ := Nat.exists_eq_add_of_le (hu.le_of_result ht hr)
  obtain ⟨gs, hg, -⟩ := hu.rest ht
  exact ⟨gs, hg⟩

/-- An assignment of a constant leads to a world with the value. -/
theorem World.reaches_setValue (w : World) (name x : String) (k : Literal) :
    w.Reaches host (Effect.Spares name) (w.setValue x k.value) := by
  have hr : Runs host .sync 3 ⟨.eval (.setGlobal x (.const k)) [], [], w⟩ [.assign x k.value]
      ⟨.give (.done k.value), [], w.setValue x k.value⟩ :=
    .silent rfl rfl (.silent rfl rfl (.move rfl (.refl _)))
  refine .run .refl hr fun e he params => ?_
  simp_all

theorem World.value?_setValue (w : World) (x : String) (v : Value) :
    (w.setValue x v).value? x = .ok v := by
  simp [World.value?, World.setValue]

/-- A lookup is a call before the value is set and a read afterwards. -/
theorem compile_lookup_setValue {w : World} {s : Scope} {x : String}
    (hx : w.values.contains x = false) (hs : s.isLocal x = false) (v : Value) (m m' : Nat) :
    compile w.values.contains s (.cons m (.symbol "value") (.cons m' (.symbol x) .empty)) =
        .ok (Code.callOf s "value" [.const (.symbol x)]) ∧
      compile (w.setValue x v).values.contains s
          (.cons m (.symbol "value") (.cons m' (.symbol x) .empty)) = .ok (.globalValue x) := by
  have hv : (w.setValue x v).values.contains x = true := by
    simp [Table.contains, World.setValue]
  rw [compile_lookup hs, compile_lookup hs, hx, hv]
  exact ⟨rfl, rfl⟩

/-- `(value x)` at top level, compiled before and after `x` is set. -/
theorem compile_moment_irrelevant_lookup :
    ∃ w₀ w₁ : World, Host.Opaque .echo ∧ w₀.Provides .value ∧
      w₀.Reaches .echo (Effect.Spares "value") w₁ ∧
      compile w₀.values.contains .toplevel
          (.cons 0 (.symbol "value") (.cons 1 (.symbol "x") .empty)) =
        .ok (.call (.global "value") [.const (.symbol "x")] .tail) ∧
      compile w₁.values.contains .toplevel
          (.cons 0 (.symbol "value") (.cons 1 (.symbol "x") .empty)) = .ok (.globalValue "x") ∧
      SameButReads .echo .sync
        ⟨.eval (.call (.global "value") [.const (.symbol "x")] .tail) [], [.settle []], w₁⟩
        ⟨.eval (.globalValue "x") [], [.settle []], w₁⟩ := by
  let w₀ := World.create .empty {} 0 0
  let w₁ := w₀.setValue "x" (.symbol "a")
  have hv : w₀.Provides .value := World.provides_create .empty {} 0 0 .value
  have hr : w₀.Reaches .echo (Effect.Spares "value") w₁ :=
    w₀.reaches_setValue "value" "x" (.symbol "a")
  have hx : (World.create .empty {} 0 0).values.contains "x" = false := by decide +kernel
  obtain ⟨h₀, h₁⟩ := @compile_lookup_setValue w₀ .toplevel "x" hx rfl (.symbol "a") 0 1
  have hends : Ends Host.echo .sync
      ⟨.eval (.call (.global "value") [.const (.symbol "x")] .tail) [], [.settle []], w₁⟩
      [.primitive .value [.symbol "x"]] (.ok (.done (.symbol "a")), w₁) := by
    obtain ⟨n, hn⟩ := @runs_call_value .echo .sync [.settle []] w₁
      (hv.reaches Host.opaque_echo hr) (by simp [unkept]) "x" .tail []
    rw [w₀.value?_setValue] at hn
    exact hn.ends (ends_settled _ [] w₁)
  refine ⟨w₀, w₁, Host.opaque_echo, hv, hr, h₀, h₁, ?_⟩
  obtain ⟨c₁, hc₁, h⟩ := ((compile_moment_irrelevant Host.opaque_echo hv hr .toplevel _).2 _ h₀).1
  obtain rfl : .globalValue "x" = c₁ := Except.ok.inj (h₁.symm.trans hc₁)
  refine h (fun q x r ho => ?_) .sync [] fun es he e hm params => ?_
  · rcases ho.cases_root with ⟨-, ho⟩ | ⟨e, he, ho⟩ | ⟨e, he, ho⟩ | ⟨e, he, ho⟩
    · cases ho
    · cases he
    · obtain rfl := List.mem_singleton.1 he
      rcases ho.cases_root with ⟨-, ho⟩ | ⟨e, he, ho⟩ | ⟨e, he, ho⟩ | ⟨e, he, ho⟩
      · cases ho
      all_goals cases he
    · cases he
  · obtain ⟨gs, hg⟩ := hends.append he
    have hm : e ∈ [Effect.primitive .value [.symbol "x"]] := by
      rw [hg]
      exact List.mem_append_left gs hm
    obtain rfl := List.mem_singleton.1 hm
    simp

/-- It matters without the condition: where `value` is a local, `(value x)` calls it as long as `x`
is not set, and reads `x` afterwards. -/
theorem not_compile_moment_irrelevant :
    ¬ ∀ (host : Host) (mode : Mode) (w₀ w₁ : World) (s : Scope) (form : Value) (c₀ c₁ : Code)
      (l : Locals), host.Opaque → w₀.Provides .value →
      w₀.Reaches host (Effect.Spares "value") w₁ →
      compile w₀.values.contains s form = .ok c₀ → compile w₁.values.contains s form = .ok c₁ →
      (∀ es, Emits host mode ⟨.eval c₀ l, [.settle []], w₁⟩ es → ∀ e ∈ es, e.Spares "value") →
        SameButReads host mode ⟨.eval c₀ l, [.settle []], w₁⟩ ⟨.eval c₁ l, [.settle []], w₁⟩ := by
  intro h
  let w₀ := World.create .empty {} 0 0
  let w₁ := w₀.setValue "x" (.symbol "a")
  let s : Scope := ⟨["value"], .tail, false, none⟩
  have hx : (World.create .empty {} 0 0).values.contains "x" = false := by decide +kernel
  obtain ⟨h₀, h₁⟩ := @compile_lookup_setValue w₀ s "x" hx rfl (.symbol "a") 0 1
  have called : Ends Host.echo .sync ⟨.eval (.call (.local "value") [.const (.symbol "x")] .tail)
      [("value", .empty)], [.settle []], w₁⟩ [] (.error (.notCallable Value.empty.text), w₁) :=
    ⟨2, ⟨.raise (.notCallable Value.empty.text), [], w₁⟩,
      .silent rfl rfl (.silent rfl rfl (.refl _)), rfl, rfl⟩
  have read : Ends Host.echo .sync
      ⟨.eval (.globalValue "x") [("value", .empty)], [.settle []], w₁⟩ []
      (.ok (.done (.symbol "a")), w₁) := by
    obtain ⟨n, hn⟩ := @runs_globalValue .echo .sync [.settle []] w₁ "x" [("value", .empty)]
    rw [w₀.value?_setValue] at hn
    exact hn.ends (ends_settled _ [] w₁)
  have hsame := h .echo .sync w₀ w₁ s _ _ _ [("value", .empty)] Host.opaque_echo
    (World.provides_create .empty {} 0 0 .value)
    (w₀.reaches_setValue "value" "x" (.symbol "a")) h₀ h₁ fun es he e hm => ?_
  · obtain ⟨es', r', he, -, ho, -⟩ := hsame.ends called
    obtain ⟨-, rfl⟩ := read.unique he
    cases ho
  · obtain ⟨gs, hg⟩ := called.append he
    obtain ⟨rfl, -⟩ := List.append_eq_nil_iff.1 hg.symm
    cases hm

end KLambda
