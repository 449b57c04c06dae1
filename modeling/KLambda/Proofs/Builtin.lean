import KLambda.Proofs.Evolution
import KLambda.Proofs.Kin

/-!
Built-in functions under their names. A new engine has every primitive under its own name. Bodies
are only ever added, so a name stands for the primitive until something else is defined under it.
-/
namespace KLambda

/-- The name of a primitive stands for it. -/
def World.Provides (p : Primitive) (w : World) : Prop :=
  ∃ f, w.functions.get? p.name = some f ∧ f.arity = some p.arity ∧
    w.heap.body f = .primitive w.runtime p

/-- What evaluations can make of a world if they have only effects that are allowed. Compiling a
form is reported before it is evaluated. -/
inductive World.Reaches (host : Host) (allowed : Effect → Prop) (w : World) : World → Prop
  | refl : Reaches host allowed w w
  | report {u : World} (h : Reaches host allowed w u) (r : Report) :
      Reaches host allowed w (u.report r)
  | run {mode : Mode} {n : Nat} {s t : State} {es : List Effect}
      (h : Reaches host allowed w s.world) (hr : Machine.Runs host mode n s es t)
      (he : ∀ e ∈ es, allowed e) : Reaches host allowed w t.world

/-- The effects other than the definition of a function under a name. -/
def Effect.Spares (name : String) (e : Effect) : Prop := ∀ params, e ≠ .define name params

variable {host : Host} {p : Primitive} {w w' : World} {e : Option Effect}

/-- Bodies of the second heap that the first one has are the same. -/
def Heap.AddsBodies (h h' : Heap) : Prop := ∃ new : List Body, h'.bodies = h.bodies ++ new.toArray

namespace Heap.AddsBodies

variable {h h' : Heap}

theorem of_eq (hb : h'.bodies = h.bodies) : h.AddsBodies h' := ⟨[], by simp [hb]⟩

theorem push {b : Body} (hb : h'.bodies = h.bodies.push b) : h.AddsBodies h' := ⟨[b], by simp [hb]⟩

theorem body_eq (hg : h.AddsBodies h') {f : Function} {b : Body} (hb : h.body f = b)
    (hm : b ≠ .missing) : h'.body f = b := by
  obtain ⟨new, hn⟩ := hg
  have hf : f.id < h.bodies.size := by
    by_contra hf
    refine hm (hb.symm.trans ?_)
    simp [Heap.body, Array.getD_eq_getD_getElem?, Nat.le_of_not_lt hf]
  rw [← hb, Heap.body, Heap.body, hn]
  simp [Array.getD_eq_getD_getElem?, Array.getElem?_append, hf]

end Heap.AddsBodies

theorem World.Becomes.addsBodies (ho : host.Opaque) (h : w.Becomes host e w') :
    w.heap.AddsBodies w'.heap := by
  cases h with
  | closure | partialApply | define => exact .push rfl
  | read form => exact .of_eq (form.bodies_build w.heap)
  | primitive p args => exact .of_eq (p.bodies_call w args)
  | native op held args =>
    obtain ⟨new, hn⟩ := ho.native op held args w.heap
    exact ⟨new, congrArg (fun r => r.2.bodies) (hn w.heap.bodies rfl)⟩
  | async op held args =>
    obtain ⟨new, hn⟩ := ho.async op held args w.heap
    exact ⟨new, congrArg (fun r => r.2.bodies) (hn w.heap.bodies rfl)⟩
  | _ => exact .of_eq rfl

namespace World.Provides

theorem of_addsBodies (h : w.Provides p) (hf : w'.functions.get? p.name = w.functions.get? p.name)
    (hr : w'.runtime = w.runtime) (hg : w.heap.AddsBodies w'.heap) : w'.Provides p := by
  obtain ⟨f, hn, ha, hb⟩ := h
  refine ⟨f, hf.trans hn, ha, ?_⟩
  rw [hr]
  exact hg.body_eq hb (by simp)

/-- One move: nothing but a definition under the name of a primitive takes the name away. -/
theorem becomes (ho : host.Opaque) (h : w.Provides p) (hb : w.Becomes host e w')
    (he : ∀ d ∈ e, d.Spares p.name) : w'.Provides p := by
  refine h.of_addsBodies ?_ hb.evolves.runtime (hb.addsBodies ho)
  by_cases hd : ∃ name params, e = some (.define name params)
  · obtain ⟨name, params, rfl⟩ := hd
    have hn : name ≠ p.name := by
      rintro rfl
      exact he _ rfl params rfl
    cases hb
    exact (Table.get?_insert ..).trans (if_neg hn)
  · rw [(hb.retains fun name params hd' => hd ⟨name, params, hd'⟩).functions]

theorem runs (ho : host.Opaque) {mode : Mode} {n : Nat} {s t : State} {es : List Effect}
    (hr : Machine.Runs host mode n s es t) (he : ∀ d ∈ es, d.Spares p.name)
    (h : s.world.Provides p) : t.world.Provides p := by
  induction hr with
  | refl => exact h
  | @move n s t es _ _ ih =>
    refine ih (fun d hd => he d (List.mem_append_right _ hd)) ?_
    refine h.becomes ho (Machine.move_becomes host s) fun d hd => he d ?_
    exact List.mem_append_left _ (Option.mem_toList.2 hd)

theorem reaches (ho : host.Opaque) (h : w.Provides p)
    (hr : w.Reaches host (Effect.Spares p.name) w') : w'.Provides p := by
  induction hr with
  | refl => exact h
  | report _ _ ih => exact ih
  | run _ hr he ih => exact ih.runs ho hr he

end World.Provides

theorem World.Reaches.evolves {allowed : Effect → Prop} (h : w.Reaches host allowed w') :
    w.Evolves w' := by
  induction h with
  | refl => exact .refl w
  | report _ _ ih => exact ih.trans (World.Retains.withHeap ..).toEvolves
  | run _ hr _ ih => exact ih.trans hr.evolves

namespace Primitive

theorem mem_all (p : Primitive) : p ∈ all := by
  cases p <;> decide

theorem eq_of_name_eq : ∀ p ∈ all, ∀ q ∈ all, p.name = q.name → p = q := by
  decide +kernel

end Primitive

namespace World

theorem provides_definePrimitive (w : World) (p : Primitive) :
    (w.definePrimitive p).Provides p := by
  refine ⟨_, (Table.get?_insert ..).trans (if_pos rfl), rfl, ?_⟩
  simp [definePrimitive, define, report, makeFunction, Heap.function, Heap.body]

theorem Provides.definePrimitive (h : w.Provides p) (q : Primitive) :
    (w.definePrimitive q).Provides p := by
  by_cases hq : q.name = p.name
  · obtain rfl := Primitive.eq_of_name_eq q q.mem_all p p.mem_all hq
    exact w.provides_definePrimitive q
  · exact h.of_addsBodies ((Table.get?_insert ..).trans (if_neg hq)) rfl (.push rfl)

theorem provides_foldl {ps : List Primitive} (h : p ∈ ps ∨ w.Provides p) :
    (ps.foldl definePrimitive w).Provides p := by
  induction ps generalizing w with
  | nil => simpa using h
  | cons q ps ih =>
    apply ih
    rcases h with h | h
    · rcases List.mem_cons.1 h with rfl | h
      · exact Or.inr (w.provides_definePrimitive p)
      · exact Or.inl h
    · exact Or.inr (h.definePrimitive q)

theorem Provides.defineEvaluator (h : w.Provides p) : w.defineEvaluator.Provides p := by
  have hp : "eval-kl" ≠ p.name := by cases p <;> decide
  exact h.of_addsBodies ((Table.get?_insert ..).trans (if_neg hp)) rfl (.push rfl)

theorem Provides.setValue (h : w.Provides p) (name : String) (v : Value) :
    (w.setValue name v).Provides p := h

theorem Provides.setStandardStream (h : w.Provides p)
    (entry : Option StreamHandle × String × String) : (w.setStandardStream entry).Provides p := by
  obtain ⟨_ | s, name, capability⟩ := entry
  · exact h.of_addsBodies rfl rfl (.of_eq rfl)
  · exact h

/-- A new engine has every primitive under its name. -/
theorem provides_create (heap : Heap) (options : Options) (runtime : Nat) (now : Float)
    (p : Primitive) : (create heap options runtime now).Provides p := by
  have texts : ∀ (es : List (String × String)) (w : World), w.Provides p →
      (es.foldl setText w).Provides p := by
    intro es
    induction es with
    | nil => exact fun w h => h
    | cons e es ih => exact fun w h => ih _ (h.setValue e.1 (.str e.2))
  have streams : ∀ (es : List (Option StreamHandle × String × String)) (w : World),
      w.Provides p → (es.foldl setStandardStream w).Provides p := by
    intro es
    induction es with
    | nil => exact fun w h => h
    | cons e es ih => exact fun w h => ih _ (h.setStandardStream e)
  let bare : World :=
    { heap, functions := .empty, values := .empty, interop := .empty, options, runtime,
      reports := #[], started := now, now }
  have hp : (Primitive.all.foldl definePrimitive bare).Provides p :=
    provides_foldl (Or.inl p.mem_all)
  exact streams _ _ (texts _ _ (hp.defineEvaluator.setValue _ _))

end World

end KLambda
