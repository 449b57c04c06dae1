import KLambda.Proofs.Currying
import KLambda.Proofs.DeadBinding
import KLambda.Proofs.Evolution

/-!
Functions that are made and dropped. A state with more function bodies than another has the same
outcome, up to the places of functions that are made later on. So have states that come to the same
above two frames, whenever these go on with the same outcome: what happened before is in terms of
functions that both worlds have.
-/
namespace KLambda

section

variable (σ τ : Nat → Nat)

theorem Function.rename_rename (f : Function) :
    (f.rename σ).rename τ = f.rename (τ ∘ σ) := rfl

theorem Value.rename_rename (v : Value) : (v.rename σ).rename τ = v.rename (τ ∘ σ) := by
  induction v with
  | cons m head tail ihh iht => simp [ihh, iht]
  | _ => rfl

theorem Value.map_rename_rename (vs : List Value) :
    (vs.map (Value.rename σ)).map (Value.rename τ) = vs.map (Value.rename (τ ∘ σ)) := by
  rw [List.map_map]
  exact List.map_congr_left fun v _ => Value.rename_rename σ τ v

theorem Locals.rename_rename (l : Locals) :
    Locals.rename τ (Locals.rename σ l) = Locals.rename (τ ∘ σ) l := by
  rw [Locals.rename, Locals.rename, Locals.rename, List.map_map]
  exact List.map_congr_left fun e _ => congrArg (Prod.mk e.1) (Value.rename_rename σ τ e.2)

theorem Body.rename_rename (b : Body) : (b.rename σ).rename τ = b.rename (τ ∘ σ) := by
  cases b with
  | closure => simp only [Body.rename, Locals.rename_rename]
  | partialOf | native | async =>
    simp only [Body.rename, Value.map_rename_rename, Function.rename_rename]
  | _ => rfl

theorem Table.map_map {α β γ : Type} (f : α → β) (g : β → γ) (t : Table α) :
    (t.map f).map g = t.map (g ∘ f) := by
  simp [Table.map]

theorem Step.rename_rename (s : Step) : (s.rename σ).rename τ = s.rename (τ ∘ σ) := by
  cases s <;>
    simp only [Step.rename, Value.rename_rename, Value.map_rename_rename, Function.rename_rename]

theorem Effect.rename_rename (e : Effect) : (e.rename σ).rename τ = e.rename (τ ∘ σ) := by
  cases e <;> simp only [Effect.rename, Value.rename_rename, Value.map_rename_rename]

end

theorem Heap.Like.trans {σ τ : Nat → Nat} {h h' h'' : Heap} (hl : Heap.Like σ h h')
    (hl' : Heap.Like τ h' h'') : Heap.Like (τ ∘ σ) h h'' where
  injective i j he := hl.injective i j (hl'.injective _ _ he)
  next i := by rw [Function.comp_apply, hl.next, hl'.next]
  bodies i := by rw [Function.comp_apply, hl'.bodies, hl.bodies, Body.rename_rename]
  vectors := by
    rw [hl'.vectors, hl.vectors, Array.map_map]
    refine Array.map_congr_left fun items _ => ?_
    rw [Function.comp_apply, Array.map_map]
    exact Array.map_congr_left fun v _ => Value.rename_rename σ τ v
  streams := hl'.streams.trans hl.streams
  disk := hl'.disk.trans hl.disk
  marks := hl'.marks.trans hl.marks

theorem World.Like.trans {σ τ : Nat → Nat} {w w' w'' : World} (hl : World.Like σ w w')
    (hl' : World.Like τ w' w'') : World.Like (τ ∘ σ) w w'' where
  heap := hl.heap.trans hl'.heap
  functions := by
    rw [hl'.functions, hl.functions, Table.map_map]
    rfl
  values := by
    rw [hl'.values, hl.values, Table.map_map]
    exact congrArg (Table.map · w.values) (funext (Value.rename_rename σ τ))
  interop := hl'.interop.trans hl.interop
  options := hl'.options.trans hl.options
  runtime := hl'.runtime.trans hl.runtime
  started := hl'.started.trans hl.started
  now := hl'.now.trans hl.now
  reports := hl'.reports.trans hl.reports

namespace Machine

variable {host : Host} {mode : Mode} {σ τ : Nat → Nat} {b : Nat} {s s' t t' u : State}
  {es : List Effect} {m n : Nat}

theorem SameEnd.trans {r r' r'' : Outcome Step × World} (h : SameEnd σ r r')
    (h' : SameEnd τ r' r'') : SameEnd (τ ∘ σ) r r'' := by
  refine ⟨?_, h.2.trans h'.2⟩
  rw [h'.1, h.1]
  cases r.1 with
  | ok step => exact congrArg Outcome.ok (Step.rename_rename σ τ step)
  | _ => rfl

theorem map_rename_rename (es : List Effect) :
    (es.map (Effect.rename σ)).map (Effect.rename τ) = es.map (Effect.rename (τ ∘ σ)) := by
  rw [List.map_map]
  exact List.map_congr_left fun e _ => Effect.rename_rename σ τ e

theorem Mirrors.trans (h : Mirrors host mode σ s t) (h' : Mirrors host mode τ t u) :
    Mirrors host mode (τ ∘ σ) s u where
  ends he := by
    obtain ⟨r', ht, hr⟩ := h.ends he
    obtain ⟨r'', hu, hr'⟩ := h'.ends ht
    exact ⟨r'', map_rename_rename _ ▸ hu, hr.trans hr'⟩
  ends_inv he := by
    obtain ⟨es', r', ht, rfl, hr'⟩ := h'.ends_inv he
    obtain ⟨es, r, hs, rfl, hr⟩ := h.ends_inv ht
    exact ⟨es, r, hs, (map_rename_rename es).symm, hr.trans hr'⟩
  emits he := map_rename_rename _ ▸ h'.emits (h.emits he)
  emits_inv he := by
    obtain ⟨es', ht, rfl⟩ := h'.emits_inv he
    obtain ⟨es, hs, rfl⟩ := h.emits_inv ht
    exact ⟨es, hs, (map_rename_rename es).symm⟩

theorem Runs.ends_rest {r : Outcome Step × World} (h : Runs host mode n s es t)
    {fs : List Effect} (he : Ends host mode s fs r) :
    ∃ gs, fs = es ++ gs ∧ Ends host mode t gs r := by
  obtain ⟨k, u, hu, hr, hw⟩ := he
  obtain ⟨d, rfl⟩ := Nat.exists_eq_add_of_le (h.le_of_result hu hr)
  obtain ⟨gs, rfl, hg⟩ := h.rest hu
  exact ⟨gs, rfl, d, u, hg, hr, hw⟩

/-- What a state emits is a part of the effects of a run from it, or goes on from the end of it. -/
theorem Runs.emits_cases (h : Runs host mode n s es t) {fs : List Effect}
    (he : Emits host mode s fs) :
    (∃ gs, es = fs ++ gs) ∨ ∃ gs, fs = es ++ gs ∧ Emits host mode t gs := by
  obtain ⟨k, u, hu⟩ := he
  rcases Nat.le_total k n with hk | hk
  · obtain ⟨d, rfl⟩ := Nat.exists_eq_add_of_le hk
    obtain ⟨gs, hgs, -⟩ := hu.rest h
    exact Or.inl ⟨gs, hgs⟩
  · obtain ⟨d, rfl⟩ := Nat.exists_eq_add_of_le hk
    obtain ⟨gs, hgs, hg⟩ := h.rest hu
    exact Or.inr ⟨gs, hgs, d, u, hg⟩

/-- Two runs with the same effects, in terms of functions that keep their places, before states of
which the one mirrors the other. -/
theorem Mirrors.of_runs (hσ : ∀ e ∈ es, e.rename σ = e) (hs : Runs host mode m s es s')
    (ht : Runs host mode n t es t') (h : Mirrors host mode σ s' t') : Mirrors host mode σ s t := by
  have fixed : ∀ fs gs : List Effect, es = fs ++ gs → fs.map (Effect.rename σ) = fs := by
    rintro fs gs rfl
    have hmap : fs.map (Effect.rename σ) = fs.map id :=
      List.map_congr_left fun e he => hσ e (List.mem_append_left gs he)
    rw [hmap, List.map_id]
  have whole : ∀ gs : List Effect,
      (es ++ gs).map (Effect.rename σ) = es ++ gs.map (Effect.rename σ) := by
    intro gs
    rw [List.map_append, fixed es [] (List.append_nil es).symm]
  constructor
  · intro fs r he
    obtain ⟨gs, rfl, hg⟩ := hs.ends_rest he
    obtain ⟨r', hr', hq⟩ := h.ends hg
    exact ⟨r', whole gs ▸ ht.ends hr', hq⟩
  · intro fs r' he
    obtain ⟨gs', rfl, hg'⟩ := ht.ends_rest he
    obtain ⟨gs, r, hg, rfl, hq⟩ := h.ends_inv hg'
    exact ⟨es ++ gs, r, hs.ends hg, whole gs, hq⟩
  · intro fs he
    rcases hs.emits_cases he with ⟨gs, hgs⟩ | ⟨gs, rfl, hg⟩
    · rw [fixed fs gs hgs]
      exact Emits.of_append ⟨n, t', hgs ▸ ht⟩
    · exact whole gs ▸ ht.emits (h.emits hg)
  · intro fs he
    rcases ht.emits_cases he with ⟨gs, hgs⟩ | ⟨gs', rfl, hg'⟩
    · exact ⟨fs, Emits.of_append ⟨m, s', hgs ▸ hs⟩, fixed fs gs hgs⟩
    · obtain ⟨gs, hg, rfl⟩ := h.emits_inv hg'
      exact ⟨es ++ gs, hs.emits hg, whole gs⟩

end Machine

/-- The values that an effect has to do with. -/
def Effect.values : Effect → List Value
  | .primitive _ args => args
  | .evaluate form => [form]
  | .host _ held args => held ++ args
  | .define _ _ => []
  | .assign _ v => [v]

/-- An effect that has to do only with functions that keep their places. -/
theorem Effect.rename_of_grounded {σ : Nat → Nat} {b : Nat} (hσ : ∀ i < b, σ i = i) {e : Effect}
    (h : ∀ v ∈ e.values, v.Grounded b) : e.rename σ = e := by
  cases e with
  | primitive op args => exact congrArg _ (Value.map_rename_of_grounded hσ h)
  | evaluate form => exact congrArg _ (Value.rename_of_grounded hσ (h form (by simp [values])))
  | host op held args =>
    have hh : held.map (Value.rename σ) = held :=
      Value.map_rename_of_grounded hσ fun v hv => h v (List.mem_append_left args hv)
    have ha : args.map (Value.rename σ) = args :=
      Value.map_rename_of_grounded hσ fun v hv => h v (List.mem_append_right held hv)
    simp only [rename, hh, ha]
  | define => rfl
  | assign name v => exact congrArg _ (Value.rename_of_grounded hσ (h v (by simp [values])))

/-- No body is ever taken away. -/
theorem World.Becomes.size_le {host : Host} {w w' : World} {e : Option Effect}
    (hh : host.Grounded) (h : w.Becomes host e w') (hw : w.Grounded)
    (he : ∀ d ∈ e, ∀ v ∈ d.values, w.Holds v) :
    w.heap.bodies.size ≤ w'.heap.bodies.size := by
  cases h with
  | closure | partialApply | define =>
    simp [Machine.closure, World.partialApply, World.define, World.report, World.makeFunction,
      Heap.function]
  | read form => exact Nat.le_of_eq (congrArg Array.size (form.bodies_build w.heap).symm)
  | primitive p args => exact Nat.le_of_eq (congrArg Array.size (p.bodies_call w args).symm)
  | native op held args => exact (hh.native op held args hw.heap (he _ rfl)).2.1
  | async op held args => exact (hh.async op held args hw.heap (he _ rfl)).2.1
  | _ => exact Nat.le_refl _

namespace Machine

variable {host : Host} {mode : Mode} {b : Nat} {s s' t u : State} {es : List Effect} {n : Nat}
  {w : World} {S T : List Frame}

theorem entryEffect?_grounded {f : Function} {args : List Value} {e : Effect} (hw : w.Grounded)
    (ha : ∀ v ∈ args, w.Holds v) (he : entryEffect? w f args = some e) :
    ∀ v ∈ e.values, w.Holds v := by
  have hp : ∀ v ∈ (w.heap.body f).parts, w.Holds v := hw.heap.bodies f.id
  unfold entryEffect? at he
  cases hb : w.heap.body f with
  | primitive r op =>
    rw [hb] at he
    dsimp only at he
    split at he <;> cases he
    exact ha
  | evaluator r =>
    rw [hb] at he
    dsimp only at he
    split at he <;> cases he
    refine List.forall_mem_singleton.2 ?_
    cases args with
    | nil => trivial
    | cons a args => exact ha a (by simp)
  | native op held | async op held =>
    rw [hb] at he hp
    cases he
    exact List.forall_mem_append.2 ⟨hp, ha⟩
  | _ =>
    rw [hb] at he
    cases he

/-- The effect of a move has to do with what the state refers to. -/
theorem effect?_grounded (hs : s.Grounded) : ∀ e ∈ effect? s, ∀ v ∈ e.values, s.world.Holds v := by
  obtain ⟨c, S, w⟩ := s
  obtain ⟨hw, hc, hS⟩ := hs
  intro e he
  cases c with
  | eval code l =>
    cases code with
    | defun name params body =>
      cases he
      simp [Effect.values]
    | interop name args =>
      cases args with
      | nil =>
        obtain ⟨op, -, rfl⟩ := Option.map_eq_some_iff.1 he
        simp [Effect.values]
      | cons => cases he
    | _ => cases he
  | enter f args =>
    refine entryEffect?_grounded hw (fun v hv => hc v ?_) he
    exact List.mem_append_left _ hv
  | wait op held args =>
    cases he
    exact hc
  | give step =>
    cases step with
    | bounce => cases he
    | done v =>
      cases S with
      | nil => cases he
      | cons frame S =>
        have hv : w.Holds v := hc v (by simp [Control.roots])
        have hf := hS frame (by simp)
        cases frame with
        | setGlobal name l =>
          cases he
          exact List.forall_mem_singleton.2 hv
        | interop op done rest l =>
          cases rest with
          | nil =>
            cases he
            simp only [Effect.values, List.nil_append, List.reverse_cons]
            refine List.forall_mem_append.2 ⟨fun u hu => hf u ?_, List.forall_mem_singleton.2 hv⟩
            exact List.mem_append_left _ hu
          | cons => cases he
        | _ => cases he
  | _ => cases he

theorem move_size_le (hh : host.Grounded) (hs : s.Grounded) :
    s.world.heap.bodies.size ≤ (move host s).world.heap.bodies.size :=
  (move_becomes host s).size_le hh hs.world (effect?_grounded hs)

theorem Runs.size_le (hh : host.Grounded) (h : Runs host mode n s es t) (hs : s.Grounded) :
    s.world.heap.bodies.size ≤ t.world.heap.bodies.size := by
  induction h with
  | refl => exact Nat.le_refl _
  | move _ _ ih => exact Nat.le_trans (move_size_le hh hs) (ih (move_grounded hh hs))

/-- What a run has done has to do with functions that are there at its end. -/
theorem Runs.effects_grounded (hh : host.Grounded) (h : Runs host mode n s es t)
    (hs : s.Grounded) : ∀ e ∈ es, ∀ v ∈ e.values, t.world.Holds v := by
  induction h with
  | refl => simp
  | @move n s t es _ hr ih =>
    have hm := move_grounded hh hs
    refine List.forall_mem_append.2 ⟨fun e he v hv => ?_, ih hm⟩
    have hle := Nat.le_trans (move_size_le hh hs) (hr.size_le hh hm)
    exact (effect?_grounded hs e (Option.mem_toList.1 he) v hv).mono hle

theorem settled_grounded (hs : s.Grounded) : (s.onto [.settle []]).Grounded := by
  refine ⟨hs.world, hs.control, List.forall_mem_append.2 ⟨hs.stack, ?_⟩⟩
  exact List.forall_mem_singleton.2 (by simp [Frame.roots, Locals.values])

/-- What comes back from above a frame does so in a world that has everything from before. -/
theorem Above.grows (hh : host.Grounded) (h : Above host mode n s es s') (hs : s.Grounded) :
    s.world.Grows s'.world := by
  have hrun := h (.settle []) [] trivial
  have hle := hrun.size_le hh (settled_grounded hs)
  exact ⟨(hrun.grounded hh (settled_grounded hs)).world, hle⟩

theorem Mirrors.refl (s : State) : Mirrors host mode id s s := by
  have effects : ∀ es : List Effect, es.map (Effect.rename id) = es := by
    intro es
    have hmap : es.map (Effect.rename id) = es.map id :=
      List.map_congr_left fun e _ => by cases e <;> simp [Effect.rename]
    rw [hmap, List.map_id]
  have same : ∀ r : Outcome Step × World, SameEnd id r r := by
    rintro ⟨o, w⟩
    refine ⟨?_, .refl w⟩
    cases o with
    | ok step => cases step <;> simp [Outcome.map, Step.rename, Function.rename]
    | _ => rfl
  constructor
  · intro es r he
    exact ⟨r, (effects es).symm ▸ he, same r⟩
  · intro es r he
    exact ⟨es, r, he, effects es, same r⟩
  · intro es he
    exact (effects es).symm ▸ he
  · intro es he
    exact ⟨es, he, effects es⟩

theorem SameRuns.sameOutcome (h : SameRuns host mode s t) (b : Nat) :
    SameOutcome host mode b s t :=
  ⟨id, fun _ _ => rfl, fun _ _ he => he, (Mirrors.refl s).congr (.refl s) h.symm⟩

namespace SameOutcome

theorem trans (h : SameOutcome host mode b s t) (h' : SameOutcome host mode b t u) :
    SameOutcome host mode b s u := by
  obtain ⟨σ, hσ, hi, hm⟩ := h
  obtain ⟨τ, hτ, hj, hn⟩ := h'
  refine ⟨τ ∘ σ, fun i hb => ?_, fun i j he => hi i j (hj _ _ he), hm.trans hn⟩
  rw [Function.comp_apply, hσ i hb, hτ i hb]

theorem congr (h : SameOutcome host mode b s t) (hs : SameRuns host mode s' s)
    (ht : SameRuns host mode u t) : SameOutcome host mode b s' u := by
  obtain ⟨σ, hσ, hi, hm⟩ := h
  exact ⟨σ, hσ, hi, hm.congr hs ht⟩

/-- It is enough that what may come back from above two frames has the same outcome. -/
theorem onto {a c : Frame} (hh : host.Grounded) (ha : a.Performs) (hc : c.Performs)
    (hs : s.Grounded)
    (h : ∀ k es s', Above host mode k s es s' → s'.Returned →
      SameOutcome host mode s'.world.heap.bodies.size (s'.onto (a :: S)) (s'.onto (c :: T))) :
    SameOutcome host mode s.world.heap.bodies.size (s.onto (a :: S)) (s.onto (c :: T)) := by
  by_cases hr : ∃ k es s', Above host mode k s es s' ∧ s'.Returned
  · obtain ⟨k, es, s', hk, hd⟩ := hr
    obtain ⟨σ, hσ, hi, hm⟩ := h k es s' hk hd
    have hrun := hk (.settle []) [] trivial
    have hfix : ∀ e ∈ es, e.rename σ = e := fun e he =>
      Effect.rename_of_grounded hσ (hrun.effects_grounded hh (settled_grounded hs) e he)
    refine ⟨σ, fun i hb => hσ i (Nat.lt_of_lt_of_le hb (hk.grows hh hs).le), hi, ?_⟩
    exact .of_runs hfix (hk a S ha) (hk c T hc) hm
  · have same : ∀ {a c : Frame} {S T : List Frame}, a.Performs → c.Performs →
        Tracks host mode Eq (s.onto (a :: S)) (s.onto (c :: T)) := by
      intro a c S T ha hc
      exact .onto (fun _ => rfl) ha hc fun k es s' hk hd => absurd ⟨k, es, s', hk, hd⟩ hr
    have ends : ∀ {t u : State}, Tracks host mode Eq t u → ∀ es r, Ends host mode t es r →
        Ends host mode u es r := by
      intro t u ht es r he
      obtain ⟨r', hr', ho, hw⟩ := ht.ends he
      rwa [show r = r' from Prod.ext ho.symm hw]
    have hac := @same a c S T ha hc
    have hca := @same c a T S hc ha
    exact SameRuns.sameOutcome ⟨fun es r => ⟨ends hac es r, ends hca es r⟩,
      fun es => ⟨hac.emits, hca.emits⟩⟩ _

end SameOutcome

/-- Bodies that nothing refers to do not matter to an evaluation. -/
theorem sameOutcome_of_extends (hh : host.Natural) (hw : w.Grounded) {v : World}
    (hv : w.Extends v) (code : Code) {l : Locals} (hl : ∀ x ∈ l.values, w.Holds x) :
    SameOutcome host mode w.heap.bodies.size ⟨.eval code l, [.settle []], w⟩
      ⟨.eval code l, [.settle []], v⟩ := by
  obtain ⟨m, hlike⟩ := hv.like hw
  have hσ : ∀ i < w.heap.bodies.size, shift w.heap.bodies.size m i = i := fun i => shift_of_lt m
  have hlocals : l.rename (shift w.heap.bodies.size m) = l := by
    have hmap : l.rename (shift w.heap.bodies.size m) = l.map id := by
      refine List.map_congr_left fun e he => ?_
      rw [Value.rename_of_grounded hσ (hl e.2 (List.mem_map_of_mem he))]
      rfl
    rw [hmap, List.map_id]
  refine ⟨_, hσ, hlike.heap.injective, mirrors_of_like hh ⟨?_, ?_, hlike⟩⟩
  · exact congrArg (Control.eval code) hlocals.symm
  · exact .cons (.same (.settle [])) .nil

end Machine

theorem Host.grounded_echo : Host.Grounded .echo where
  native op held args h hg ha := by
    refine ⟨hg, Nat.le_refl _, ?_⟩
    rintro _ ⟨rfl⟩
    cases args with
    | nil => trivial
    | cons a args => exact ha a (by simp)
  async op held args h hg ha := by
    simp only [Host.echo]
    split
    · refine ⟨hg, Nat.le_refl _, ?_⟩
      rintro _ ⟨rfl⟩
      cases args with
      | nil => trivial
      | cons a args => exact ha a (by simp)
    · exact ⟨hg, Nat.le_refl _, fun v hv => ha v (List.mem_append_left _ hv)⟩

end KLambda
