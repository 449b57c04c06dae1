import KLambda.Proofs.Natural
import KLambda.Proofs.Sound

/-!
Grounded worlds, in which no function dangles: every function that anything refers to has a place in
the heap. Bodies that are added to such a world, and that nothing refers to, do not change what it
does.
-/
namespace KLambda

/-- Every function in a value has a place below `b`. -/
def Value.Grounded (b : Nat) : Value → Prop
  | .cons _ head tail => head.Grounded b ∧ tail.Grounded b
  | .function f => f.id < b
  | _ => True

/-- Everything that the heap holds has only functions with a place in it. -/
structure Heap.Grounded (h : Heap) : Prop where
  bodies (i : Nat) (v : Value) :
    v ∈ (h.bodies.getD i .missing).parts → v.Grounded h.bodies.size
  vectors (id : Nat) (v : Value) : v ∈ h.elements id → v.Grounded h.bodies.size

structure World.Grounded (w : World) : Prop where
  heap : w.heap.Grounded
  functions (e : String × Function) : e ∈ w.functions.entries → e.2.id < w.heap.bodies.size
  values (e : String × Value) : e ∈ w.values.entries → e.2.Grounded w.heap.bodies.size

/-- A value that has only functions with a place in the heap. -/
abbrev World.Holds (w : World) (v : Value) : Prop := v.Grounded w.heap.bodies.size

/-- Makes room for `m` functions at place `b`. -/
def shift (b m i : Nat) : Nat := if i < b then i else i + m

theorem shift_of_lt {b i : Nat} (m : Nat) (h : i < b) : shift b m i = i := by
  simp [shift, h]

/-- The same world with more bodies, and with more reports of partial applications. -/
def World.Extends (w u : World) : Prop :=
  ∃ extra reports,
    u = { w with heap := { w.heap with bodies := w.heap.bodies ++ extra }, reports } ∧
    reports.toList.filter (!·.isPartial) = w.reports.toList.filter (!·.isPartial)

variable {σ : Nat → Nat} {b : Nat}

theorem Value.Grounded.mono {b' : Nat} (hb : b ≤ b') {v : Value} (h : v.Grounded b) :
    v.Grounded b' := by
  induction v with
  | cons m head tail ihh iht => exact ⟨ihh h.1, iht h.2⟩
  | function f => exact Nat.lt_of_lt_of_le h hb
  | _ => trivial

section

variable (hσ : ∀ i < b, σ i = i)

include hσ

theorem Function.rename_of_grounded {f : Function} (h : f.id < b) : f.rename σ = f := by
  simp [Function.rename, hσ f.id h]

theorem Value.rename_of_grounded {v : Value} (h : v.Grounded b) : v.rename σ = v := by
  induction v with
  | cons m head tail ihh iht => simp [ihh h.1, iht h.2]
  | function f => exact congrArg Value.function (Function.rename_of_grounded hσ h)
  | _ => rfl

theorem Value.map_rename_of_grounded {vs : List Value} (h : ∀ v ∈ vs, v.Grounded b) :
    vs.map (Value.rename σ) = vs := by
  rw [List.map_congr_left fun v hv => Value.rename_of_grounded hσ (h v hv), List.map_id']

theorem Body.rename_of_grounded {body : Body} (h : ∀ v ∈ body.parts, v.Grounded b) :
    body.rename σ = body := by
  cases body with
  | closure runtime params code captured =>
    have hc : captured.rename σ = captured := by
      rw [Locals.rename, List.map_congr_left (g := id), List.map_id]
      intro e he
      have hv : e.2 ∈ captured.values := List.mem_map_of_mem he
      rw [Value.rename_of_grounded hσ (h _ hv)]
      rfl
    simp [Body.rename, hc]
  | partialOf target bound =>
    obtain ⟨ht, hb⟩ := List.forall_mem_cons.1 h
    simp only [Body.rename, Value.map_rename_of_grounded hσ hb,
      Function.rename_of_grounded hσ (f := target) ht]
  | native op held | async op held =>
    have hv : held.map (Value.rename σ) = held := Value.map_rename_of_grounded hσ h
    simp only [Body.rename, hv]
  | _ => rfl

end

namespace World

variable {w u v : World}

theorem Extends.refl (w : World) : w.Extends w := ⟨#[], w.reports, by simp, rfl⟩

theorem Extends.trans (h : w.Extends u) (h' : u.Extends v) : w.Extends v := by
  obtain ⟨extra, reports, rfl, hr⟩ := h
  obtain ⟨extra', reports', rfl, hr'⟩ := h'
  exact ⟨extra ++ extra', reports', by simp, hr'.trans hr⟩

theorem Extends.partialApply (h : w.Extends u) (f : Function) (bound : List Value) :
    w.Extends (u.partialApply f bound).2 := by
  obtain ⟨extra, reports, rfl, hr⟩ := h
  refine ⟨extra.push (.partialOf f bound), reports.push (.partialApplication f.name bound.length),
    ?_, ?_⟩
  · simp [World.partialApply, World.report, World.makeFunction, Heap.function]
  · simpa [Report.isPartial] using hr

theorem Extends.body (h : w.Extends u) {f : Function} (hf : f.id < w.heap.bodies.size) :
    u.heap.body f = w.heap.body f := by
  obtain ⟨extra, reports, rfl, -⟩ := h
  simp [Heap.body, Array.getD, hf, Nat.lt_add_right, Array.getElem_append_left]

theorem Extends.mem_parts (h : w.Extends u) {n : Node} {x : Value} (hx : x ∈ w.heap.parts n) :
    x ∈ u.heap.parts n := by
  have hn := Heap.contains_of_mem_parts hx
  obtain ⟨extra, reports, rfl, -⟩ := h
  cases n with
  | body id =>
    have hi : id < w.heap.bodies.size := hn
    simpa [Heap.parts, Array.getD, hi, Nat.lt_add_right, Array.getElem_append_left] using hx
  | _ => exact hx

/-- What keeps its bytes from being lost is still there when bodies are added. -/
theorem Extends.quiet (h : w.Extends u) (hq : w.heap.Quiet w.roots) : u.heap.Quiet u.roots := by
  have hm := fun n x => h.mem_parts (n := n) (x := x)
  obtain ⟨extra, reports, rfl, -⟩ := h
  exact fun id s hs hb => (hq id s hs hb).of_parts hm

theorem Grounded.functions_rename (hw : w.Grounded) (hσ : ∀ i < w.heap.bodies.size, σ i = i) :
    w.functions.map (Function.rename σ) = w.functions := by
  have he : ∀ e ∈ w.functions.entries, (e.1, Function.rename σ e.2) = id e := by
    intro e he
    rw [Function.rename_of_grounded hσ (hw.functions e he)]
    rfl
  rw [Table.map, List.map_congr_left he, List.map_id]

theorem Grounded.values_rename (hw : w.Grounded) (hσ : ∀ i < w.heap.bodies.size, σ i = i) :
    w.values.map (Value.rename σ) = w.values := by
  have he : ∀ e ∈ w.values.entries, (e.1, Value.rename σ e.2) = id e := by
    intro e he
    rw [Value.rename_of_grounded hσ (hw.values e he)]
    rfl
  rw [Table.map, List.map_congr_left he, List.map_id]

theorem Grounded.vectors_rename (hw : w.Grounded) (hσ : ∀ i < w.heap.bodies.size, σ i = i) :
    w.heap.vectors.map (Array.map (Value.rename σ)) = w.heap.vectors := by
  have hv : ∀ items ∈ w.heap.vectors, items.map (Value.rename σ) = id items := by
    intro items hm
    obtain ⟨id, hi, rfl⟩ := Array.getElem_of_mem hm
    have hg : ∀ x ∈ w.heap.vectors[id], x.rename σ = x := by
      intro x hx
      apply Value.rename_of_grounded hσ (hw.heap.vectors id x _)
      simpa [Heap.elements, Array.getD, hi] using hx
    rw [Array.map_congr_left hg, Array.map_id']
    rfl
  rw [Array.map_congr_left hv, Array.map_id]

/-- Bodies that nothing refers to do not matter. -/
theorem Extends.like (h : w.Extends u) (hw : w.Grounded) :
    ∃ m, World.Like (shift w.heap.bodies.size m) w u := by
  obtain ⟨extra, reports, rfl, hr⟩ := h
  have hσ : ∀ i < w.heap.bodies.size, shift w.heap.bodies.size extra.size i = i :=
    fun i => shift_of_lt extra.size
  refine ⟨extra.size, ⟨?_, ?_, ?_, ?_, rfl, rfl, rfl⟩, ?_, ?_, rfl, rfl, rfl, rfl, rfl, hr⟩
  · intro i j he
    unfold shift at he
    split at he <;> split at he <;> omega
  · intro i
    simp only [shift, Array.size_append]
    split <;> omega
  · intro i
    by_cases hi : i < w.heap.bodies.size
    · rw [hσ i hi, Body.rename_of_grounded hσ (hw.heap.bodies i)]
      simp [Array.getD, hi, Nat.lt_add_right, Array.getElem_append_left]
    · simp [Array.getD, shift, hi, Body.rename]
  · exact (hw.vectors_rename hσ).symm
  · exact (hw.functions_rename hσ).symm
  · exact (hw.values_rename hσ).symm

theorem Grounded.withheld {values : List (String × Value)} (h : ∀ e ∈ values, e.2.Grounded 1) :
    (World.withheld values).Grounded where
  heap := by
    refine ⟨fun i v hv => ?_, fun id v hv => ?_⟩
    · rcases i with _ | i <;> simp [World.withheld, Body.parts] at hv
    · simp [World.withheld, Heap.empty, Heap.elements] at hv
  functions := by simp [World.withheld]
  values := h

end World
end KLambda
