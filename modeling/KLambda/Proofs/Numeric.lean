import KLambda.Proofs.Dangling
import KLambda.Proofs.Positions
import KLambda.Proofs.Reading

/-!
Where numbers come from. If every finite number is one of `P`, and so is every number that stands in
a form, then so is every number that the form's code comes to: the constants of code are atoms of
the form, and a primitive gives a finite number or one that it was given.
-/
namespace KLambda

/-- Every number in a value is one of `P`. -/
def Value.Numeric (P : Float → Prop) : Value → Prop
  | .number n => P n
  | .cons _ head tail => head.Numeric P ∧ tail.Numeric P
  | _ => True

/-- Every number that occurs in code as a constant is one of `P`. -/
def Code.Numeric (P : Float → Prop) (c : Code) : Prop :=
  ∀ p q n, c.Occurs p q (.const (.number n)) → P n

/-- Every number that a body holds is one of `P`, and the body is none of the host's. -/
def Body.Numeric (P : Float → Prop) : Body → Prop
  | .closure _ _ code captured => code.Numeric P ∧ ∀ v ∈ captured.values, v.Numeric P
  | .partialOf _ bound => ∀ v ∈ bound, v.Numeric P
  | .native .. | .async .. => False
  | _ => True

structure Heap.Numeric (P : Float → Prop) (h : Heap) : Prop where
  bodies (i : Nat) : (h.bodies.getD i .missing).Numeric P
  vectors (id : Nat) (v : Value) : v ∈ h.elements id → v.Numeric P

/-- Every number that the globals and the heap hold is one of `P`, and so is every time; there is
nothing of the host. -/
structure World.Numeric (P : Float → Prop) (w : World) : Prop where
  heap : w.heap.Numeric P
  values (e : String × Value) : e ∈ w.values.entries → e.2.Numeric P
  interop : w.interop.entries = []
  clock : P (w.options.clock.getD w.now)
  elapsed : P (w.now - w.started)

variable {P : Float → Prop} {s : Scope} {v : Value} {c : Code}

mutual

/-- The numbers of a value that a form builds are those that the form is written with. -/
theorem Form.build_numeric (f : Form) (h : Heap) (hf : ∀ n, Token.number n ∈ f.tokens → P n) :
    (f.build h).1.Numeric P := by
  cases f with
  | number n => exact hf n (by simp [Form.tokens])
  | str | symbol => trivial
  | list items =>
    refine Form.buildList_numeric items h fun n hn => hf n ?_
    simp [Form.tokens, hn]

theorem Form.buildList_numeric (fs : List Form) (h : Heap)
    (hf : ∀ n, Token.number n ∈ Form.listTokens fs → P n) : (Form.buildList fs h).1.Numeric P := by
  cases fs with
  | nil => trivial
  | cons f fs =>
    constructor
    · exact Form.build_numeric f h fun n hn => hf n (by simp [Form.listTokens, hn])
    · exact Form.buildList_numeric fs _ fun n hn => hf n (by simp [Form.listTokens, hn])

end

theorem Value.hereditary_numeric : Value.Hereditary (Value.Numeric P) := by
  intro v hv u hu
  induction v with
  | cons m a b _ ihb =>
    rcases List.mem_cons.1 hu with rfl | hu
    · exact hv.1
    · exact ihb hv.2 hu
  | _ => simp [heads] at hu

theorem Value.Hereditary.construct {R : Value → Prop} (hR : Value.Hereditary R) {k : Construct}
    (hv : R v) (h : v.construct? = some k) : ∀ u ∈ k.parts, R u := by
  unfold Value.construct? at h
  split at h
  · rename_i head operands hi
    have hs := hR.items hv hi
    exact fun u => hR.part (fun x hx => hs x (by simp [hx])) (Option.some.inj h)
  · cases h

theorem Value.Hereditary.clauses {R : Value → Prop} (hR : Value.Hereditary R) {vs : List Value}
    {clauses : List (Value × Value)} {default : Option Value} (hs : ∀ v ∈ vs, R v)
    (h : Clauses s vs clauses default) :
    (∀ p ∈ clauses, R p.1 ∧ R p.2) ∧ ∀ d ∈ default, R d := by
  induction h with
  | nil => simp
  | default hv ht =>
    have hc := hR.clause (hs _ List.mem_cons_self) hv
    refine ⟨by simp, ?_⟩
    rintro _ ⟨⟩
    exact hc.2
  | cons hv ht _ ih =>
    obtain ⟨hv', hr⟩ := List.forall_mem_cons.1 hs
    obtain ⟨hp, hd⟩ := ih hr
    exact ⟨List.forall_mem_cons.2 ⟨hR.clause hv' hv, hp⟩, hd⟩

/-- What occurs in code does so wherever the code stands. -/
theorem Code.Occurs.move {p q : CallPosition} {d : Code} (h : c.Occurs p q d) (p' : CallPosition) :
    ∃ q', c.Occurs p' q' d := by
  induction h with
  | root => exact ⟨p', .root⟩
  | ending _ he ih =>
    obtain ⟨q', h⟩ := ih
    exact ⟨q', h.ending he⟩
  | operand _ he ih =>
    obtain ⟨q', h⟩ := ih
    exact ⟨.head, h.operand he⟩
  | body _ he ih =>
    obtain ⟨q', h⟩ := ih
    exact ⟨.tail, h.body he⟩

namespace Code.Numeric

variable {e : Code}

theorem ending (h : c.Numeric P) (he : e ∈ c.endings) : e.Numeric P :=
  fun p q n ho => h p q n (.trans (.ending .root he) ho)

theorem operand (h : c.Numeric P) (he : e ∈ c.operands) : e.Numeric P := by
  intro p q n ho
  obtain ⟨q', ho⟩ := ho.move .head
  exact h p q' n (.trans (.operand .root he) ho)

theorem body (h : c.Numeric P) (he : c.functionBody? = some e) : e.Numeric P := by
  intro p q n ho
  obtain ⟨q', ho⟩ := ho.move .tail
  exact h p q' n (.trans (.body .root he) ho)

theorem constant {n : Float} (h : (Code.const (.number n)).Numeric P) : P n := h .tail .tail n .root

theorem of_parts (hc : ∀ n, c = .const (.number n) → P n) (he : ∀ e ∈ c.endings, e.Numeric P)
    (ho : ∀ e ∈ c.operands, e.Numeric P) (hb : ∀ e, c.functionBody? = some e → e.Numeric P) :
    c.Numeric P := by
  intro p q n hd
  rcases hd.cases_root with ⟨rfl, h⟩ | ⟨e, hx, hd⟩ | ⟨e, hx, hd⟩ | ⟨e, hx, hd⟩
  · exact hc n h.symm
  · exact he e hx p q n hd
  · exact ho e hx .head q n hd
  · exact hb e hx .tail q n hd

theorem sequence {effects : List Code} (he : ∀ e ∈ effects, e.Numeric P) (hc : c.Numeric P) :
    (Code.sequence effects c).Numeric P := by
  unfold Code.sequence
  split
  · exact hc
  · refine of_parts (by simp) (by simpa using hc) (fun e hx => ?_) (by simp)
    exact he e (List.mem_filter.1 hx).1

end Code.Numeric

/-- What forms have goes over to their codes, if it does so one by one. -/
theorem forall_of_zip_imp {α β : Type} {R : α → Prop} {Q : β → Prop} {as : List α} {bs : List β}
    (hl : as.length = bs.length) (h : ∀ p ∈ as.zip bs, R p.1 → Q p.2) (hs : ∀ a ∈ as, R a) :
    ∀ b ∈ bs, Q b :=
  forall_of_zip hl fun p hp => h p hp (hs p.1 (List.of_mem_zip hp).1)

theorem Code.Numeric.cond {clauses : List (Value × Value)} {codes : List (Code × Code)}
    {default : Option Code} (hl : clauses.length = codes.length)
    (hs : ∀ p ∈ clauses, p.1.Numeric P ∧ p.2.Numeric P)
    (ht : ∀ p ∈ clauses.zip codes, p.1.1.Numeric P → p.2.1.Numeric P)
    (hb : ∀ p ∈ clauses.zip codes, p.1.2.Numeric P → p.2.2.Numeric P)
    (hd : ∀ d ∈ default, d.Numeric P) : (Code.cond codes default).Numeric P := by
  have htest : ∀ p ∈ codes, p.1.Numeric P :=
    forall_of_zip_imp (R := fun p => p.1.Numeric P) hl ht fun p hp => (hs p hp).1
  have hbody : ∀ p ∈ codes, p.2.Numeric P :=
    forall_of_zip_imp (R := fun p => p.2.Numeric P) hl hb fun p hp => (hs p hp).2
  refine of_parts (by simp) (fun e he => ?_) (fun e he => ?_) (by simp)
  · rcases List.mem_append.1 he with he | he
    · obtain ⟨p, hp, rfl⟩ := List.mem_map.1 he
      exact hbody p hp
    · exact hd e (Option.mem_toList.1 he)
  · obtain ⟨p, hp, rfl⟩ := List.mem_map.1 he
    exact htest p hp

/-- The constants of code are atoms of the form that it was compiled from. -/
theorem Compiles.numeric (h : Compiles s v c) (hv : v.Numeric P) : c.Numeric P := by
  have hR : Value.Hereditary (Value.Numeric P) := Value.hereditary_numeric
  induction h with
  | number s n => exact .of_parts (by rintro _ ⟨⟩; exact hv) (by simp) (by simp) (by simp)
  | all hk hl _ ih | any hk hl _ ih =>
    have hs := forall_of_zip_imp hl ih (hR.construct hv hk)
    exact .of_parts (by simp) (by simp) hs (by simp)
  | branch hk _ _ _ iht ihy ihn =>
    have hs := hR.construct hv hk
    simp only [Construct.parts, List.forall_mem_cons] at hs
    obtain ⟨ht, hy, hn, -⟩ := hs
    exact .of_parts (by simp) (by simp [ihy hy, ihn hn]) (List.forall_mem_singleton.2 (iht ht))
      (by simp)
  | cond hk hc hl _ _ iht ihb =>
    obtain ⟨hs, -⟩ := hR.clauses (hR.construct hv hk) hc
    exact .cond hl hs iht ihb (by simp)
  | condDefault hk hc hl _ _ _ iht ihb ihd =>
    obtain ⟨hs, hd⟩ := hR.clauses (hR.construct hv hk) hc
    exact .cond hl hs iht ihb (by simpa using ihd (hd _ rfl))
  | letIn hk _ _ _ iha ihb =>
    have hs := hR.construct hv hk
    simp only [Construct.parts, List.forall_mem_cons] at hs
    obtain ⟨-, ha, hb, -⟩ := hs
    exact .of_parts (by simp) (List.forall_mem_singleton.2 (ihb hb))
      (List.forall_mem_singleton.2 (iha ha)) (by simp)
  | letDead hk _ _ _ iha ihb | letDiscard hk _ _ iha ihb =>
    have hs := hR.construct hv hk
    simp only [Construct.parts, List.forall_mem_cons] at hs
    obtain ⟨-, ha, hb, -⟩ := hs
    exact .sequence (List.forall_mem_singleton.2 (iha ha)) (ihb hb)
  | sequence hk hl _ _ ihe ihc =>
    obtain ⟨hi, hlast⟩ := List.forall_mem_append.1 (hR.construct hv hk)
    exact .sequence (forall_of_zip_imp hl ihe hi) (ihc (hlast _ (by simp)))
  | lambda hk _ ih | freeze hk _ ih | defun hk _ _ ih =>
    have hb := ih (hR.construct hv hk _ (by simp [Construct.parts]))
    exact .of_parts (by simp) (by simp) (by simp) (by rintro _ ⟨⟩; exact hb)
  | trapBind hk hh _ _ ihb ihi =>
    have hs := hR.construct hv hk
    simp only [Construct.parts, List.forall_mem_cons] at hs
    obtain ⟨hb, hi, -⟩ := hs
    exact .of_parts (by simp) (List.forall_mem_singleton.2 (ihi (hR.handler hi hh)))
      (List.forall_mem_singleton.2 (ihb hb)) (by simp)
  | trapApply hk _ _ _ ihb ihf =>
    have hs := hR.construct hv hk
    simp only [Construct.parts, List.forall_mem_cons] at hs
    obtain ⟨hb, hf, -⟩ := hs
    exact .of_parts (by simp) (by simp)
      (List.forall_mem_cons.2 ⟨ihb hb, List.forall_mem_singleton.2 (ihf hf)⟩) (by simp)
  | assign hk _ _ ih =>
    have hs := hR.construct hv hk
    simp only [Construct.parts, List.forall_mem_cons] at hs
    exact .of_parts (by simp) (by simp) (List.forall_mem_singleton.2 (ih hs.2.1)) (by simp)
  | typed hk _ ih => exact ih (hR.construct hv hk _ (by simp [Construct.parts]))
  | callLocal hi _ _ hl _ ih | callGlobal hi _ _ _ hl _ ih | interop hi _ _ _ hl _ ih =>
    obtain ⟨-, ho⟩ := List.forall_mem_cons.1 (hR.items hv hi)
    exact .of_parts (by simp) (by simp) (forall_of_zip_imp hl ih ho) (by simp)
  | callComputed hi _ _ hl _ ihh ih =>
    obtain ⟨hh, ho⟩ := List.forall_mem_cons.1 (hR.items hv hi)
    exact .of_parts (by simp) (by simp)
      (List.forall_mem_cons.2 ⟨ihh hh, forall_of_zip_imp hl ih ho⟩) (by simp)
  | _ => exact .of_parts (by simp) (by simp) (by simp) (by simp)

theorem World.compileForm_numeric {w : World} (hv : v.Numeric P) :
    Yields (Code.Numeric P) (fun _ => True) (w.compileForm v).1 :=
  (compile_compiles _ v).imp fun _ h => h.numeric hv

variable {h h' : Heap} {w w' : World}

namespace Heap.Numeric

/-- Marks, streams and files have no part in it. -/
theorem of_eq (hn : h.Numeric P) (hb : h'.bodies = h.bodies) (hv : h'.vectors = h.vectors) :
    h'.Numeric P where
  bodies i := by
    rw [hb]
    exact hn.bodies i
  vectors id v hm := by
    rw [elements, hv] at hm
    exact hn.vectors id v hm

theorem function (hn : h.Numeric P) (name : String) (arity : Option Nat) {b : Body}
    (hb : b.Numeric P) : (h.function name arity b).2.Numeric P := by
  refine ⟨fun i => ?_, hn.vectors⟩
  simp only [Heap.function, getD_push]
  split
  · exact hb
  · exact hn.bodies i

theorem vector (hn : h.Numeric P) {items : Array Value} (hi : ∀ v ∈ items, v.Numeric P) :
    (h.vector items).2.Numeric P := by
  refine ⟨hn.bodies, fun id v hv => ?_⟩
  simp only [Heap.vector, elements, getD_push] at hv
  split at hv
  · exact hi v hv
  · exact hn.vectors id v hv

theorem setElement (hn : h.Numeric P) (id index : Nat) {x : Value} (hx : x.Numeric P) :
    (h.setElement id index x).Numeric P := by
  refine ⟨hn.bodies, fun i v hv => ?_⟩
  rw [elements_setElement] at hv
  split at hv
  · rcases Array.mem_or_eq_of_mem_setIfInBounds hv with hm | rfl
    · exact hn.vectors i v hm
    · exact hx
  · exact hn.vectors i v hv

end Heap.Numeric

namespace World.Numeric

theorem value (hw : w.Numeric P) {name : String} (hv : w.values.get? name = some v) :
    v.Numeric P := by
  obtain ⟨e, he, rfl⟩ := Table.mem_of_find hv
  exact hw.values e he

theorem withHeap (hw : w.Numeric P) (hh : h.Numeric P) : World.Numeric P { w with heap := h } :=
  ⟨hh, hw.values, hw.interop, hw.clock, hw.elapsed⟩

theorem report (hw : w.Numeric P) (r : Report) : (w.report r).Numeric P :=
  ⟨hw.heap, hw.values, hw.interop, hw.clock, hw.elapsed⟩

theorem of_touches (hw : w.Numeric P) (h : w.Touches w') : w'.Numeric P := by
  cases h with
  | intro heap reports hb hv =>
    exact ⟨hw.heap.of_eq hb hv, hw.values, hw.interop, hw.clock, hw.elapsed⟩

theorem setValue (hw : w.Numeric P) (name : String) (hv : v.Numeric P) :
    (w.setValue name v).Numeric P := by
  refine ⟨hw.heap, fun e he => ?_, hw.interop, hw.clock, hw.elapsed⟩
  rcases Table.of_mem_put he with he | he
  · exact hw.values e he
  · exact he ▸ hv

theorem define (hw : w.Numeric P) (name : String) (f : Function) : (w.define name f).Numeric P :=
  ⟨hw.heap, hw.values, hw.interop, hw.clock, hw.elapsed⟩

theorem makeFunction (hw : w.Numeric P) (name : String) (arity : Option Nat) {b : Body}
    (hb : b.Numeric P) : (w.makeFunction name arity b).2.Numeric P :=
  hw.withHeap (hw.heap.function name arity hb)

theorem partialApply (hw : w.Numeric P) (f : Function) {bound : List Value}
    (hb : ∀ v ∈ bound, v.Numeric P) : (w.partialApply f bound).2.Numeric P :=
  (hw.report _).makeFunction f.name _ (b := .partialOf f bound) hb

end World.Numeric

section

variable (hP : ∀ x : Float, x.isFinite = true → P x)

include hP

theorem guarded_numeric (hn : h.Numeric P) : Guarded h (Value.Numeric P) fun _ => True where
  admits _ _ := trivial
  atom v hv := by cases v <;> first | trivial | simp [Value.kind] at hv
  number := hP
  cell _ _ _ hv := hv
  element id size i _ _ :=
    ⟨fun x hx => hn.vectors id x (Array.mem_of_getElem? hx), fun _ => trivial⟩

/-- A primitive that is given numbers of `P` gives one and leaves only such. -/
theorem Primitive.call_numeric (hw : w.Numeric P) {args : List Value}
    (ha : ∀ v ∈ args, v.Numeric P) (p : Primitive) :
    (p.call args w).2.Numeric P ∧
      Yields (Value.Numeric P) (fun _ => True) (p.call args w).1 := by
  have hQ : Admits fun _ => True := fun _ _ => trivial
  fun_cases Primitive.call p args w
  case case1 path mode =>
    refine ⟨hw.of_touches (openFile_touches w path mode), (openFile_yields hQ w path mode).imp ?_⟩
    rintro _ ⟨s, rfl⟩
    trivial
  case case2 s =>
    refine ⟨hw.of_touches (closeFile_touches w s), (closeFile_yields hQ w s).imp ?_⟩
    rintro _ rfl
    trivial
  case case3 s =>
    refine ⟨hw.of_touches (readFrom_touches w s), (readFrom_yields hQ w s).imp ?_⟩
    rintro _ ⟨n, hn, rfl⟩
    exact hP n hn
  case case4 b s =>
    refine ⟨hw.of_touches (writeTo_touches w b s), (writeTo_yields hQ w b s).imp ?_⟩
    rintro _ rfl
    exact ha _ (by simp)
  case case5 head tail v heap he =>
    cases he
    exact ⟨hw.withHeap (hw.heap.of_eq rfl rfl), ha head (by simp), ha tail (by simp)⟩
  case case6 n =>
    unfold makeVector
    split
    · exact ⟨hw, trivial⟩
    · refine ⟨hw.withHeap (hw.heap.vector ?_), trivial⟩
      intro v hv
      obtain ⟨-, rfl⟩ := Array.mem_replicate.1 hv
      trivial
  case case7 v i x =>
    unfold storeElement
    split
    · exact ⟨hw, trivial⟩
    · exact ⟨hw.withHeap (hw.heap.setElement _ _ (ha x (by simp))), ha v (by simp)⟩
  case case8 => exact ⟨hw, trivial⟩
  case case9 name v s _ => exact ⟨hw.setValue s (ha v (by simp)), ha v (by simp)⟩
  case case10 name =>
    refine ⟨hw, (name.toSymbol_yields hQ).bind fun s _ => ?_⟩
    exact (w.value?_yields hQ s).imp fun _ => hw.value
  case case11 mode =>
    refine ⟨hw, (time_yields hQ w mode).imp ?_⟩
    rintro _ (rfl | rfl)
    · exact hw.clock
    · exact hw.elapsed
  case case12 =>
    unfold computed
    split
    next hr => exact ⟨hw, compute_yields (guarded_numeric hP hw.heap) ha hr⟩
    next => exact ⟨hw, trivial⟩

end

end KLambda
