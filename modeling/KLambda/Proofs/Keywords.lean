import KLambda.Proofs.CompileTime
import KLambda.Proofs.Currying
import KLambda.Proofs.Flattening

/-!
Keywords that are names of functions as well. A special form with all of its operands comes to what
the function of the same name makes of the values of the operands, at once or in parts, although the
one is code that goes into its operands in turn and the other a primitive that is given all of them.
The exception is a value that is looked up where a local has the name of the function that does so.
-/
namespace KLambda

/-- A name that is local and bound to a value. -/
structure Scope.Binds (s : Scope) (l : Locals) (name : String) (v : Value) : Prop where
  isLocal : s.isLocal name = true
  find : Table.find name l = some v

/-- Operands of a special form that is a function as well, and what they stand for: names of locals
for their values, and the name of a global value for itself. -/
inductive Primitive.Operands (s : Scope) (l : Locals) : Primitive → List Value → List Value → Prop
  | choose {a b c : String} {x y z : Value} (ha : s.Binds l a x) (hb : s.Binds l b y)
      (hc : s.Binds l c z) :
      Operands s l .choose [.symbol a, .symbol b, .symbol c] [x, y, z]
  | and {a b : String} {x y : Value} (ha : s.Binds l a x) (hb : s.Binds l b y) :
      Operands s l .and [.symbol a, .symbol b] [x, y]
  | or {a b : String} {x y : Value} (ha : s.Binds l a x) (hb : s.Binds l b y) :
      Operands s l .or [.symbol a, .symbol b] [x, y]
  | annotate {a b : String} {x y : Value} (ha : s.Binds l a x) (hb : s.Binds l b y) :
      Operands s l .annotate [.symbol a, .symbol b] [x, y]
  | set {name a : String} {x : Value} (hn : s.isLocal name = false) (ha : s.Binds l a x) :
      Operands s l .set [.symbol name, .symbol a] [.symbol name, x]
  | value {name : String} (hn : s.isLocal name = false) :
      Operands s l .value [.symbol name] [.symbol name]

namespace Machine

/-- A run ends with this result in this world. -/
def Computes (host : Host) (mode : Mode) (s : State) (r : Except Error Value × World) : Prop :=
  ∃ es, Ends host mode s es (.ofExcept (r.1.map .done), r.2)

variable {host : Host} {mode : Mode} {S : List Frame} {s t : State} {es : List Effect} {n : Nat}
  {w : World} {r : Except Error Value × World} {l : Locals} {name : String} {v : Value}

theorem computes_ofResult (r : Except Error Value) (w : World) :
    Computes host mode (ofResult [.settle []] w r) (r, w) := by
  cases r with
  | ok v => exact ⟨[], ends_settled v [] w⟩
  | error e => exact ⟨[], ends_raised (fun _ _ => rfl) e w⟩

theorem Runs.computes (h : Runs host mode n s es t) (ht : Computes host mode t r) :
    Computes host mode s r := by
  obtain ⟨fs, ht⟩ := ht
  exact ⟨es ++ fs, h.ends ht⟩

theorem Runs.computes_ofResult {r : Except Error Value}
    (h : Runs host mode n s es (ofResult [.settle []] w r)) : Computes host mode s (r, w) :=
  h.computes (Machine.computes_ofResult r w)

end Machine

open Machine

variable {host : Host} {mode : Mode} {defined : String → Bool} {s : Scope} {l : Locals}
  {p : Primitive} {operands args : List Value} {w u : World} {S : List Frame}

theorem Primitive.Operands.length_args (h : p.Operands s l operands args) :
    args.length = p.arity := by
  cases h <;> rfl

namespace Scope.Binds

variable {a : String} {v : Value}

theorem inHead (h : s.Binds l a v) : s.inHead.Binds l a v := ⟨h.isLocal, h.find⟩

theorem compile (h : s.Binds l a v) (hs : s.statement = false) :
    KLambda.compile defined s (.symbol a) = .ok (.local a) := by
  rw [KLambda.compile, if_pos h.isLocal]
  simp [Code.finish, hs]

theorem runs (h : s.Binds l a v) (S : List Frame) (w : World) :
    Runs host mode 1 ⟨.eval (.local a) l, S, w⟩ [] ⟨.give (.done v), S, w⟩ := by
  have hm : move host ⟨.eval (.local a) l, S, w⟩ = ⟨.give (.done v), S, w⟩ := by
    simp [move, step, evalCode, ofResult, local?, h.find]
  exact .silent rfl rfl (hm ▸ .refl _)

/-- A local whose value a frame is waiting for. -/
theorem runs_resume (h : s.Binds l a v) {frame : Frame} :
    Runs host mode 2 ⟨.eval (.local a) l, frame :: S, w⟩ (frameEffect? v frame).toList
      (resumeFrame S w host frame v) := by
  have hr : Runs host mode 1 ⟨.give (.done v), frame :: S, w⟩ _ _ := Runs.one rfl
  exact (h.runs (frame :: S) w).trans hr

end Scope.Binds

namespace Primitive

variable (x y z : Value) (w : World)

theorem call_choose :
    call .choose [x, y, z] w = (x.toBool.map fun t => if t then y else z, w) := by
  cases hx : x.toBool <;>
    simp [call, computed, compute, hx, bind, Except.bind, pure, Except.pure, Except.map]

theorem call_and :
    call .and [x, y] w =
      (x.toBool.bind fun t => if t then y.toBool.map .bool else .ok (.bool false), w) := by
  cases hx : x.toBool <;> cases hy : y.toBool <;>
    simp [call, computed, compute, hx, hy, bind, Except.bind, pure, Except.pure, Except.map]

theorem call_or :
    call .or [x, y] w =
      (x.toBool.bind fun t => if t then .ok (.bool true) else y.toBool.map .bool, w) := by
  cases hx : x.toBool <;> cases hy : y.toBool <;>
    simp [call, computed, compute, hx, hy, bind, Except.bind, pure, Except.pure, Except.map]

end Primitive

section

variable {a b c : String} {x y z : Value}

theorem computes_branch (ha : s.Binds l a x) (hb : s.Binds l b y) (hc : s.Binds l c z)
    (w : World) :
    Computes host mode ⟨.eval (.branch (.local a) (.local b) (.local c)) l, [.settle []], w⟩
      (Primitive.call .choose [x, y, z] w) := by
  have hr : Runs host mode 3
      ⟨.eval (.branch (.local a) (.local b) (.local c)) l, [.settle []], w⟩ []
      (resumeFrame [.settle []] w host (.branch (.local b) (.local c) l) x) :=
    .silent rfl rfl ha.runs_resume
  refine hr.computes ?_
  rw [Primitive.call_choose]
  rcases hx : x.toBool with e | _ | _
  · simp only [resumeFrame, hx]
    exact computes_ofResult (.error e) w
  · simp only [resumeFrame, hx]
    exact (hc.runs [.settle []] w).computes (computes_ofResult (.ok z) w)
  · simp only [resumeFrame, hx]
    exact (hb.runs [.settle []] w).computes (computes_ofResult (.ok y) w)

/-- The last operand of a chain has to be a boolean. -/
theorem computes_all_last (hb : s.Binds l b y) (w : World) :
    Computes host mode ⟨.eval (.all [.local b]) l, [.settle []], w⟩ (y.toBool.map .bool, w) := by
  have hr : Runs host mode 3 ⟨.eval (.all [.local b]) l, [.settle []], w⟩ []
      (resumeFrame [.settle []] w host (.all [] l) y) := .silent rfl rfl hb.runs_resume
  refine hr.computes ?_
  rcases hy : y.toBool with e | _ | _
  · simp only [resumeFrame, hy]
    exact computes_ofResult (.error e) w
  · simp only [resumeFrame, hy]
    exact computes_ofResult (.ok (.bool false)) w
  · have ht : Runs host mode 1 ⟨.eval (.all []) l, [.settle []], w⟩ []
        (ofResult [.settle []] w (.ok (.bool true))) := .silent rfl rfl (.refl _)
    simp only [resumeFrame, hy]
    exact ht.computes_ofResult

theorem computes_any_last (hb : s.Binds l b y) (w : World) :
    Computes host mode ⟨.eval (.any [.local b]) l, [.settle []], w⟩ (y.toBool.map .bool, w) := by
  have hr : Runs host mode 3 ⟨.eval (.any [.local b]) l, [.settle []], w⟩ []
      (resumeFrame [.settle []] w host (.any [] l) y) := .silent rfl rfl hb.runs_resume
  refine hr.computes ?_
  rcases hy : y.toBool with e | _ | _
  · simp only [resumeFrame, hy]
    exact computes_ofResult (.error e) w
  · have hf : Runs host mode 1 ⟨.eval (.any []) l, [.settle []], w⟩ []
        (ofResult [.settle []] w (.ok (.bool false))) := .silent rfl rfl (.refl _)
    simp only [resumeFrame, hy]
    exact hf.computes_ofResult
  · simp only [resumeFrame, hy]
    exact computes_ofResult (.ok (.bool true)) w

/-- The second operand is looked at only after a first one that is true. -/
theorem computes_all (ha : s.Binds l a x) (hb : s.Binds l b y) (w : World) :
    Computes host mode ⟨.eval (.all [.local a, .local b]) l, [.settle []], w⟩
      (Primitive.call .and [x, y] w) := by
  have hr : Runs host mode 3 ⟨.eval (.all [.local a, .local b]) l, [.settle []], w⟩ []
      (resumeFrame [.settle []] w host (.all [.local b] l) x) := .silent rfl rfl ha.runs_resume
  refine hr.computes ?_
  rw [Primitive.call_and]
  rcases hx : x.toBool with e | _ | _
  · simp only [resumeFrame, hx]
    exact computes_ofResult (.error e) w
  · simp only [resumeFrame, hx]
    exact computes_ofResult (.ok (.bool false)) w
  · simp only [resumeFrame, hx]
    exact computes_all_last hb w

/-- The second operand is looked at only after a first one that is false. -/
theorem computes_any (ha : s.Binds l a x) (hb : s.Binds l b y) (w : World) :
    Computes host mode ⟨.eval (.any [.local a, .local b]) l, [.settle []], w⟩
      (Primitive.call .or [x, y] w) := by
  have hr : Runs host mode 3 ⟨.eval (.any [.local a, .local b]) l, [.settle []], w⟩ []
      (resumeFrame [.settle []] w host (.any [.local b] l) x) := .silent rfl rfl ha.runs_resume
  refine hr.computes ?_
  rw [Primitive.call_or]
  rcases hx : x.toBool with e | _ | _
  · simp only [resumeFrame, hx]
    exact computes_ofResult (.error e) w
  · simp only [resumeFrame, hx]
    exact computes_any_last hb w
  · simp only [resumeFrame, hx]
    exact computes_ofResult (.ok (.bool true)) w

theorem computes_setGlobal (name : String) (ha : s.Binds l a x) (w : World) :
    Computes host mode ⟨.eval (.setGlobal name (.local a)) l, [.settle []], w⟩
      (Primitive.call .set [.symbol name, x] w) := by
  have hr : Runs host mode 3 ⟨.eval (.setGlobal name (.local a)) l, [.settle []], w⟩
      [.assign name x] (ofResult [.settle []] (w.setValue name x) (.ok x)) :=
    .silent rfl rfl ha.runs_resume
  exact hr.computes_ofResult

theorem computes_globalValue (name : String) (l : Locals) (w : World) :
    Computes host mode ⟨.eval (.globalValue name) l, [.settle []], w⟩
      (Primitive.call .value [.symbol name] w) := by
  have hr : Runs host mode 1 ⟨.eval (.globalValue name) l, [.settle []], w⟩ []
      (ofResult [.settle []] w (w.value? name)) := .silent rfl rfl (.refl _)
  exact hr.computes_ofResult

/-- The call that a lookup is when the value is not known to be defined. -/
theorem computes_call_value (hw : w.Provides .value) (name : String) (position : CallPosition)
    (l : Locals) :
    Computes host mode
      ⟨.eval (.call (.global "value") [.const (.symbol name)] position) l, [.settle []], w⟩
      (Primitive.call .value [.symbol name] w) := by
  obtain ⟨n, hn⟩ := @runs_call_value host mode [.settle []] w hw (by simp [unkept]) name position l
  exact hn.computes_ofResult

end

/-- Names are no chains, so nothing is spliced into a chain of names. -/
theorem Value.splice_symbols (keyword a b : String) :
    Value.splice keyword [.symbol a, .symbol b] = [.symbol a, .symbol b] := by
  have hf : ∀ x : String, ¬ (Value.symbol x).isForm keyword = true := fun x => Bool.false_ne_true
  rw [splice, if_neg (hf a), splice, if_neg (hf b), splice]

/-- A special form with all of its operands compiles to code that computes what the primitive of the
same name makes of their values. -/
theorem Primitive.Operands.compileList (h : p.Operands s l operands args) (hw : w.Provides p)
    (hs : s.statement = false)
    (hv : ∀ x, operands = [.symbol x] → s.isLocal "value" = true → defined x = true) :
    ∃ code, KLambda.compileList defined s (.symbol p.name) operands = .ok code ∧
      Computes host mode ⟨.eval code l, [.settle []], w⟩ (p.call args w) := by
  have head : s.inHead.statement = false := rfl
  cases h with
  | choose ha hb hc =>
    refine ⟨_, ?_, computes_branch ha hb hc w⟩
    rw [compileList_eq, show Construct.ofList _ _ = .branch _ _ _ from rfl, Construct.compiled,
      ha.inHead.compile head, hb.compile hs, hc.compile hs]
    rfl
  | and ha hb =>
    refine ⟨_, ?_, computes_all ha hb w⟩
    rw [compileList_eq, show Construct.ofList _ _ = .junction true (Value.splice "and" _) from rfl,
      Value.splice_symbols, Construct.compiled, compileAll, compileAll, compileAll,
      ha.inHead.compile head, hb.inHead.compile head]
    rfl
  | or ha hb =>
    refine ⟨_, ?_, computes_any ha hb w⟩
    rw [compileList_eq, show Construct.ofList _ _ = .junction false (Value.splice "or" _) from rfl,
      Value.splice_symbols, Construct.compiled, compileAll, compileAll, compileAll,
      ha.inHead.compile head, hb.inHead.compile head]
    rfl
  | annotate ha hb =>
    refine ⟨_, ?_, (ha.runs [.settle []] w).computes (computes_ofResult (.ok _) w)⟩
    rw [compileList_eq, show Construct.ofList _ _ = .typed _ from rfl, Construct.compiled,
      ha.compile hs]
  | @set name a x hn ha =>
    refine ⟨_, ?_, computes_setGlobal name ha w⟩
    rw [compileList_eq, show Construct.ofList _ _ = .assign _ _ from rfl, Construct.compiled,
      if_neg (by simp [hn]), ha.inHead.compile head]
    rfl
  | @value name hn =>
    rw [compileList_eq, show Construct.ofList _ _ = .lookup _ from rfl, Construct.compiled]
    by_cases hd : defined name = true
    · exact ⟨_, if_pos (by simp [hn, hd]), computes_globalValue name l w⟩
    · have hl : ¬ s.isLocal "value" = true := fun hl => hd (hv name rfl hl)
      refine ⟨_, ?_, computes_call_value hw name s.position l⟩
      rw [if_neg (by simp [hd]), show Primitive.name .value = "value" from rfl,
        compileCall_value s hn, Code.callOf, if_neg hl]
      rfl

/-- A primitive computes the same in a world with more partial applications, and adds none. -/
theorem Primitive.Operands.call_extends (h : p.Operands s l operands args) (hu : w.Extends u) :
    (p.call args u).1 = (p.call args w).1 ∧ (p.call args w).2.Extends (p.call args u).2 := by
  obtain ⟨extra, reports, rfl, hr⟩ := hu
  cases h with
  | choose | and | or | annotate => exact ⟨rfl, extra, reports, rfl, hr⟩
  | set => exact ⟨rfl, extra, reports, rfl, hr⟩
  | value => exact ⟨rfl, extra, reports, rfl, hr⟩

theorem runs_enter_primitive {f : Function} (hb : w.heap.body f = .primitive w.runtime p)
    (S : List Frame) (args : List Value) :
    Runs host mode 1 ⟨.enter f args, S, w⟩ [.primitive p args]
      (ofResult S (p.call args w).2 (p.call args w).1) := by
  have he : effect? ⟨.enter f args, S, w⟩ = some (.primitive p args) := by
    simp [effect?, entryEffect?, hb]
  have hm : move host ⟨.enter f args, S, w⟩ = ofResult S (p.call args w).2 (p.call args w).1 := by
    simp [move, step, enterFunction, hb]
  have hr : Runs host mode 1 ⟨.enter f args, S, w⟩ _ _ := Runs.one rfl
  rwa [he, hm] at hr

/-- The body of a primitive stays what it is when partial applications are made. -/
theorem World.Extends.body_primitive (h : w.Extends u) {f : Function}
    (hb : w.heap.body f = .primitive w.runtime p) : u.heap.body f = .primitive u.runtime p := by
  have hi : f.id < w.heap.bodies.size := by
    by_contra hi
    simp [Heap.body, Array.getD, hi] at hb
  have hr : u.runtime = w.runtime := by
    obtain ⟨-, -, rfl, -⟩ := h
    rfl
  rw [h.body hi, hb, hr]

/-- Given all of its arguments, in any number of parts, a primitive is called with all of them. -/
theorem computes_supplied {f : Function} (hf : f.arity = some p.arity)
    (hb : w.heap.body f = .primitive w.runtime p) {cs : List (List Value)} {c : List Value}
    (hs : cs.flatten ++ c = args) (ha : args.length = p.arity) (hc : c ≠ []) :
    Computes host mode ⟨.run (w.supplyAll f cs).1 c, [.settle []], (w.supplyAll f cs).2⟩
      (p.call args (w.supplyAll f cs).2) := by
  subst hs
  have hl : cs.flatten.length + c.length = p.arity := by rwa [List.length_append] at ha
  have hpos := List.length_pos_iff.2 hc
  have hbody := ((World.Extends.refl w).supplyAll f cs).body_primitive hb
  obtain ⟨k, hk⟩ : ∃ k, Runs host mode k
      ⟨.run (w.supplyAll f cs).1 c, [.settle []], (w.supplyAll f cs).2⟩ [] _ :=
    supplyAll_enters (obeys_move host w) hf rfl (by omega) (Nat.le_of_eq ha.symm)
  rw [List.take_of_length_le (Nat.le_of_eq ha), leftOver, if_neg (by omega), List.nil_append] at hk
  exact (hk.trans (runs_enter_primitive hbody _ _)).computes_ofResult

/-- A special form whose operands are locals, and names where names are meant, has the result of the
function of the same name for the values of the operands: the same value or the same error, and the
same world, except that supplying the arguments in parts adds partial applications to it. This is so
for every function that still is the built-in one, unless the form looks up a value that was not
defined when it was compiled, where a local has the name of the function that looks values up. -/
theorem special_forms_agree (host : Host) (mode : Mode) (hw : w.Provides p)
    (hs : s.statement = false) (ho : p.Operands s l operands args)
    (hv : ∀ x, operands = [.symbol x] → s.isLocal "value" = true → defined x = true)
    {form : Value} (hf : form.items? = some (.symbol p.name :: operands)) :
    ∃ code f r w', compile defined s form = .ok code ∧ w.functions.get? p.name = some f ∧
      Computes host mode ⟨.eval code l, [.settle []], w⟩ (r, w') ∧
      Computes host mode ⟨.run f args, [.settle []], w⟩ (r, w') ∧
      ∀ cs c, cs.flatten ++ c = args → c ≠ [] → ∃ g u w'', Curries host mode f w cs g u ∧
        Computes host mode ⟨.run g c, [.settle []], u⟩ (r, w'') ∧ w'.Extends w'' := by
  obtain ⟨code, hc, hr⟩ := ho.compileList hw hs hv
  have ha := ho.length_args
  obtain ⟨f, hn, hf', hb⟩ := hw
  have hcode : compile defined s form = .ok code := by
    obtain ⟨mark, t, rfl⟩ := Value.exists_cons_of_items? hf
    rw [compile_cons hf, hc]
    simp [Except.map, Code.finish, hs]
  refine ⟨code, f, _, _, hcode, hn, hr, ?_, fun cs c hcs hne => ?_⟩
  · have hargs : args ≠ [] := by
      cases ho <;> simp
    exact @computes_supplied host mode p args w f hf' hb [] args rfl ha hargs
  · have hl : cs.flatten.length < p.arity := by
      have := List.length_pos_iff.2 hne
      rw [← ha, ← hcs, List.length_append]
      omega
    obtain ⟨hfst, hext⟩ := ho.call_extends ((World.Extends.refl w).supplyAll f cs)
    have hsup := @computes_supplied host mode _ _ _ f hf' hb cs c hcs ha hne
    exact ⟨_, _, _, World.supplyAll_curries (obeys_move host w) hf' hl, hfst ▸ hsup, hext⟩

/-- The second operand of an `and` whose first one is true is no boolean, which is the same error
for the special form, for the function, and for the function that is given its arguments one by one.
-/
theorem special_forms_agree_and :
    ∃ code f r w', compile (fun _ => false) ⟨["A", "B"], .tail, false, none⟩
        (.cons 0 (.symbol "and") (.cons 1 (.symbol "A") (.cons 2 (.symbol "B") .empty))) =
          .ok code ∧
      (World.create .empty {} 0 0).functions.get? "and" = some f ∧
      Computes .echo .sync ⟨.eval code [("A", .bool true), ("B", .empty)], [.settle []],
        World.create .empty {} 0 0⟩ (r, w') ∧
      Computes .echo .sync ⟨.run f [.bool true, .empty], [.settle []], World.create .empty {} 0 0⟩
        (r, w') ∧
      ∃ g u w'', Curries Host.echo .sync f (World.create .empty {} 0 0) [[.bool true]] g u ∧
        Computes .echo .sync ⟨.run g [.empty], [.settle []], u⟩ (r, w'') ∧ w'.Extends w'' := by
  have ho : Primitive.Operands ⟨["A", "B"], .tail, false, none⟩ [("A", .bool true), ("B", .empty)]
      .and [.symbol "A", .symbol "B"] [.bool true, .empty] :=
    .and ⟨by decide, rfl⟩ ⟨by decide, rfl⟩
  have hi : (Value.cons 0 (.symbol "and")
      (.cons 1 (.symbol "A") (.cons 2 (.symbol "B") .empty))).items? =
      some (.symbol "and" :: [.symbol "A", .symbol "B"]) := rfl
  obtain ⟨code, f, r, w', hc, hf, hs, hr, hparts⟩ := special_forms_agree .echo .sync
    (World.provides_create .empty {} 0 0 .and) rfl ho (by simp) hi
  exact ⟨code, f, r, w', hc, hf, hs, hr, hparts [[.bool true]] [.empty] rfl (by simp)⟩

/-- The condition on lookups matters: where `value` is a local, `(value x)` calls it as long as `x`
is not set. -/
theorem not_special_forms_agree :
    ¬ ∀ (host : Host) (mode : Mode) (w : World) (s : Scope) (l : Locals) (p : Primitive)
      (operands args : List Value) (form : Value) (code : Code) (f : Function)
      (r : Except Error Value × World), w.Provides p → s.statement = false →
      p.Operands s l operands args → form.items? = some (.symbol p.name :: operands) →
      compile w.values.contains s form = .ok code → w.functions.get? p.name = some f →
      Computes host mode ⟨.eval code l, [.settle []], w⟩ r →
        Computes host mode ⟨.run f args, [.settle []], w⟩ r := by
  intro h
  let w := World.create .empty {} 0 0
  let s : Scope := ⟨["value"], .tail, false, none⟩
  obtain ⟨f, hf, ha, hb⟩ := World.provides_create .empty {} 0 0 .value
  have ho : Primitive.Operands s [("value", .empty)] .value [.symbol "x"] [.symbol "x"] :=
    .value (by decide)
  have hc : compile w.values.contains s (.cons 0 (.symbol "value") (.cons 1 (.symbol "x") .empty)) =
      .ok (.call (.local "value") [.const (.symbol "x")] .tail) := by
    have hx : w.values.contains "x" = false := by decide +kernel
    rw [compile_lookup (by decide), hx]
    rfl
  have called : Computes .echo .sync ⟨.eval (.call (.local "value") [.const (.symbol "x")] .tail)
      [("value", .empty)], [.settle []], w⟩ (.error (.notCallable Value.empty.text), w) :=
    (Runs.silent rfl rfl (.refl _)).computes (computes_ofResult (.error _) w)
  obtain ⟨es, he⟩ := h .echo .sync w s _ .value _ _ _ _ f _ ⟨f, hf, ha, hb⟩ rfl ho rfl hc hf called
  obtain ⟨fs, hfs⟩ := @computes_supplied .echo .sync .value [.symbol "x"] w f ha hb [] [.symbol "x"]
    rfl rfl (by simp)
  obtain ⟨-, hr⟩ := he.unique hfs
  have hx : w.values.get? "x" = none := by decide +kernel
  have hv : (Primitive.call .value [.symbol "x"] w).1 = .error (.unbound .values "x") := by
    simp [Primitive.call, Value.toSymbol, Except.bind, World.value?, hx]
  rw [Prod.mk.injEq] at hr
  have ho := hr.1
  rw [show (w.supplyAll f []).2 = w from rfl, hv] at ho
  cases ho

end KLambda
