import KLambda.Proofs.Flattening
import Mathlib.Logic.Relation

/-!
The leaves of a chain. Below a form headed by a keyword there is a tree: the operands headed by the
same keyword branch again, all others are leaves. Flattening a form lists the leaves of its operands
from left to right. It works through a stack, which is empty after at most as many steps as the form
has cells and atoms. How the operands were nested is all that flattening forgets.
-/
namespace KLambda

namespace Value

/-- The leaves of a form in order: those of its operands if `keyword` heads it, otherwise the form
alone. -/
def leaves (keyword : String) (v : Value) : List Value :=
  if v.isForm keyword then v.operands.attach.flatMap fun u => leaves keyword u.1 else [v]
termination_by v.size
decreasing_by exact Nat.lt_of_le_of_lt (size_le_sizes u.2) v.sizes_operands_lt

/-- The second list has a run of the first in one form that `keyword` heads. -/
inductive Nests (keyword : String) : List Value → List Value → Prop
  | run {form : Value} (h : form.isForm keyword = true) (before after : List Value) :
      Nests keyword (before ++ (form.operands ++ after)) (before ++ form :: after)

variable {keyword : String} {u v : Value} {vs ws : List Value}

theorem leaves_form (h : v.isForm keyword = true) :
    v.leaves keyword = v.operands.flatMap (leaves keyword) := by
  rw [leaves, if_pos h]
  simp

theorem leaves_other (h : ¬ v.isForm keyword = true) : v.leaves keyword = [v] := by
  rw [leaves, if_neg h]

theorem splice_eq_leaves (keyword : String) (vs : List Value) :
    splice keyword vs = vs.flatMap (leaves keyword) := by
  fun_induction splice keyword vs with
  | case1 => rfl
  | case2 v rest hv ih => rw [ih, List.flatMap_append, List.flatMap_cons, leaves_form hv]
  | case3 v rest hv ih => rw [ih, List.flatMap_cons, leaves_other hv, List.singleton_append]

theorem isForm_of_mem_splice (h : u ∈ splice keyword vs) : u.isForm keyword = false := by
  fun_induction splice keyword vs with
  | case1 => cases h
  | case2 v rest _ ih => exact ih h
  | case3 v rest hv ih =>
    rcases List.mem_cons.1 h with rfl | h
    · exact Bool.eq_false_iff.2 hv
    · exact ih h

theorem Nests.splice_eq (h : Nests keyword vs ws) : splice keyword vs = splice keyword ws := by
  cases h with
  | run h before after => rw [splice_append, splice_append keyword before, splice, if_pos h]

theorem Nests.cons (v : Value) (h : Nests keyword vs ws) : Nests keyword (v :: vs) (v :: ws) := by
  cases h with
  | run h before after => exact .run h (v :: before) after

/-- Operands come from their leaves by putting runs into nested forms. -/
theorem nests_splice (keyword : String) (vs : List Value) :
    Relation.ReflTransGen (Nests keyword) (splice keyword vs) vs := by
  fun_induction splice keyword vs with
  | case1 => exact .refl
  | case2 v rest hv ih =>
    -- what comes of `v.operands ++ rest` has the operands of `v` as its first run
    exact ih.tail (.run hv [] rest)
  | case3 v rest hv ih => exact ih.lift (v :: ·) fun _ _ h => h.cons v

theorem splice_eq_iff :
    splice keyword vs = splice keyword ws ↔ Relation.EqvGen (Nests keyword) vs ws := by
  constructor
  · intro h
    have hv := Relation.EqvGen.reflTransGen_le_eqvGen _ _ _ (nests_splice keyword vs)
    have hw := Relation.EqvGen.reflTransGen_le_eqvGen _ _ _ (nests_splice keyword ws)
    rw [h] at hv
    exact .trans _ _ _ (.symm _ _ hv) hw
  · intro h
    induction h with
    | rel vs ws h => exact h.splice_eq
    | refl vs => rfl
    | symm vs ws _ ih => exact ih.symm
    | trans us vs ws _ _ ih ih' => exact ih.trans ih'

end Value

/-- However the operands of a chain are nested, it compiles to the same code. -/
theorem compile_regrouped {k : Chain} {defined : String → Bool} {s : Scope} {v w : Value}
    {vs ws : List Value} (hv : v.items? = some (.symbol k.keyword :: vs))
    (hw : w.items? = some (.symbol k.keyword :: ws)) (hvs : k.least ≤ vs.length)
    (hws : k.least ≤ ws.length) (h : Relation.EqvGen (Value.Nests k.keyword) vs ws) :
    compile defined s v = compile defined s w := by
  rw [compile_chain hv hvs, compile_chain hw hws, Value.splice_eq_iff.2 h]
  cases k with
  | all | any => simp only [Chain.construct, compiled_junction]
  | sequence => simp only [Chain.construct, compiled_sequence]

/-- A flattening under way: the forms that are pending, the next one last, and those kept so far. -/
structure Flattening where
  pending : Array Value
  kept : Array Value

namespace Flattening

open Value

def start (v : Value) : Flattening := ⟨v.operands.toArray.reverse, #[]⟩

/-- Takes the next form. If `keyword` heads it, its operands are pending in its place, the first of
them on top, otherwise it is kept. -/
def step? (keyword : String) (s : Flattening) : Option Flattening :=
  s.pending.back?.map fun v =>
    if v.isForm keyword then ⟨s.pending.pop ++ v.operands.toArray.reverse, s.kept⟩
    else ⟨s.pending.pop, s.kept.push v⟩

/-- Takes steps until nothing is pending, but no more than a number of them. -/
def run (keyword : String) : Nat → Flattening → Flattening
  | 0, s => s
  | n + 1, s =>
    match s.step? keyword with
    | none => s
    | some t => run keyword n t

/-- The pending forms, the next one first. -/
def queue (s : Flattening) : List Value := s.pending.toList.reverse

/-- All that is kept in the end. -/
def total (keyword : String) (s : Flattening) : List Value :=
  s.kept.toList ++ splice keyword s.queue

variable {keyword : String} {s t : Flattening}

theorem queue_start (v : Value) : (start v).queue = v.operands := by
  simp [start, queue]

theorem total_start (keyword : String) (v : Value) :
    (start v).total keyword = v.flatten keyword := by
  rw [total, queue_start]
  rfl

theorem step?_eq_none (h : s.step? keyword = none) : s.pending = #[] := by
  simpa [step?] using h

/-- A step takes the first form of the queue, and puts its operands there or keeps it. -/
theorem step?_cases (h : s.step? keyword = some t) : ∃ v rest, s.queue = v :: rest ∧
    (v.isForm keyword = true ∧ t.queue = v.operands ++ rest ∧ t.kept = s.kept ∨
      ¬ v.isForm keyword = true ∧ t.queue = rest ∧ t.kept = s.kept.push v) := by
  obtain ⟨v, hv, rfl⟩ := Option.map_eq_some_iff.1 h
  obtain ⟨below, hp⟩ := Array.back?_eq_some_iff.1 hv
  refine ⟨v, below.toList.reverse, by simp [queue, hp], ?_⟩
  split
  · rename_i hf
    exact Or.inl ⟨hf, by simp [queue, hp], rfl⟩
  · rename_i hf
    exact Or.inr ⟨hf, by simp [queue, hp], rfl⟩

theorem total_step (h : s.step? keyword = some t) : t.total keyword = s.total keyword := by
  obtain ⟨v, rest, hq, ⟨hv, ht, hk⟩ | ⟨hv, ht, hk⟩⟩ := step?_cases h
  · rw [total, total, hq, ht, hk, splice, if_pos hv]
  · rw [total, total, hq, ht, hk, splice, if_neg hv]
    simp

theorem sizes_step (h : s.step? keyword = some t) : sizes t.queue < sizes s.queue := by
  obtain ⟨v, rest, hq, ⟨-, ht, -⟩ | ⟨-, ht, -⟩⟩ := step?_cases h
  · have := v.sizes_operands_lt
    rw [hq, ht, sizes_append, sizes_cons]
    omega
  · have := v.size_pos
    rw [hq, ht, sizes_cons]
    omega

theorem eq_of_step?_eq_none (h : s.step? keyword = none) :
    s = ⟨#[], (s.total keyword).toArray⟩ := by
  obtain ⟨pending, kept⟩ := s
  obtain rfl : pending = #[] := step?_eq_none h
  simp [total, queue, splice]

/-- Every step lowers the size of what is pending, and none changes the total. -/
theorem run_eq {n : Nat} (h : sizes s.queue ≤ n) :
    run keyword n s = ⟨#[], (s.total keyword).toArray⟩ := by
  induction n generalizing s with
  | zero =>
    cases hs : s.step? keyword with
    | none => exact eq_of_step?_eq_none hs
    | some t => exact absurd (sizes_step hs) (by omega)
  | succ n ih =>
    rw [run]
    cases hs : s.step? keyword with
    | none => exact eq_of_step?_eq_none hs
    | some t =>
      have hlt := sizes_step hs
      rw [← total_step hs]
      exact ih (by omega)

end Flattening

namespace Value

/-- Flattening ends, with the leaves of the operands in order. None of them is headed by the
keyword, and two forms have the same leaves if and only if putting runs of operands into nested
forms, or taking them out again, leads from the operands of one to those of the other. -/
theorem flattening_in_order (keyword : String) (v : Value) :
    (∀ n, v.size ≤ n →
      Flattening.run keyword n (.start v) = ⟨#[], (v.flatten keyword).toArray⟩) ∧
    v.flatten keyword = v.operands.flatMap (leaves keyword) ∧
    (∀ u ∈ v.flatten keyword, u.isForm keyword = false) ∧
    ∀ w : Value, v.flatten keyword = w.flatten keyword ↔
      Relation.EqvGen (Nests keyword) v.operands w.operands := by
  refine ⟨fun n hn => ?_, splice_eq_leaves keyword v.operands, fun u => isForm_of_mem_splice,
    fun w => splice_eq_iff⟩
  have hq : sizes (Flattening.start v).queue ≤ n := by
    rw [Flattening.queue_start]
    exact Nat.le_trans (Nat.le_of_lt v.sizes_operands_lt) hn
  rw [Flattening.run_eq hq, Flattening.total_start]

/-- `(do a (do b (do c) | x) d)` has the leaves of `(do a b c d)`. -/
theorem flattening_in_order_improper :
    let v : Value := .cons 0 (.symbol "do") (.cons 1 (.symbol "a") (.cons 2
      (.cons 3 (.symbol "do") (.cons 4 (.symbol "b") (.cons 5
        (.cons 6 (.symbol "do") (.cons 7 (.symbol "c") .empty)) (.symbol "x"))))
      (.cons 8 (.symbol "d") .empty)))
    let w : Value := .cons 9 (.symbol "do") (.cons 10 (.symbol "a") (.cons 11 (.symbol "b")
      (.cons 12 (.symbol "c") (.cons 13 (.symbol "d") .empty))))
    let leaves : List Value := [.symbol "a", .symbol "b", .symbol "c", .symbol "d"]
    v.size ≤ 19 ∧ Flattening.run "do" 19 (.start v) = ⟨#[], leaves.toArray⟩ ∧
      v.operands.flatMap (Value.leaves "do") = leaves ∧
      (Value.symbol "c" ∈ v.flatten "do" ∧ (Value.symbol "c").isForm "do" = false) ∧
      Relation.EqvGen (Nests "do") v.operands w.operands := by
  intro v w leaves
  have hv : v.flatten "do" = leaves := by
    simp [v, leaves, flatten, splice, operands, heads, isForm]
  have hw : w.flatten "do" = leaves := by
    simp [w, leaves, flatten, splice, operands, heads, isForm]
  have hsize : v.size ≤ 19 := by decide
  have hmem : Value.symbol "c" ∈ v.flatten "do" := by simp [hv, leaves]
  obtain ⟨hrun, hleaves, hform, hnest⟩ := flattening_in_order "do" v
  refine ⟨hsize, ?_, hleaves.symm.trans hv, ⟨hmem, hform _ hmem⟩, (hnest w).1 (hv.trans hw.symm)⟩
  rw [hrun 19 hsize, hv]

end Value
end KLambda
