import KLambda.Machine.Reach
import Mathlib.Tactic.ByContra
import Mathlib.Tactic.Tauto

/-!
What is in reach. The walk that follows references marks the nodes of the heap that its roots lead
to, and no others: what has been met is in reach, and what has been met leads to nothing else once
there is nothing left to follow.
-/
namespace KLambda

/-- What can be reached from a value by following references. -/
inductive Heap.Reaches (h : Heap) : Value → Value → Prop
  | refl (v : Value) : Reaches h v v
  | head {m : Nat} {a b v : Value} (hr : Reaches h a v) : Reaches h (.cons m a b) v
  | tail {m : Nat} {a b v : Value} (hr : Reaches h b v) : Reaches h (.cons m a b) v
  | element {id size : Nat} {u v : Value} (hu : u ∈ h.parts (.vector id)) (hr : Reaches h u v) :
      Reaches h (.vector id size) v
  | part {f : Function} {u v : Value} (hu : u ∈ h.parts (.body f.id)) (hr : Reaches h u v) :
      Reaches h (.function f) v

/-- A value refers to a node itself. -/
inductive Value.Leads : Value → Node → Prop
  | head {id : Nat} {head tail : Value} {n : Node} (h : Leads head n) : Leads (.cons id head tail) n
  | tail {id : Nat} {head tail : Value} {n : Node} (h : Leads tail n) : Leads (.cons id head tail) n
  | vector (id size : Nat) : Leads (.vector id size) (.vector id)
  | function (f : Function) : Leads (.function f) (.body f.id)
  | stream (s : StreamHandle) : Leads (.stream s) (.stream s.id)

namespace Heap

/-- A node is in reach of these values. -/
def InReach (h : Heap) (roots : List Value) (n : Node) : Prop :=
  ∃ v ∈ roots, ∃ u, h.Reaches v u ∧ u.Leads n

/-- A node that there is. -/
def Contains (h : Heap) : Node → Prop
  | .vector id => id < h.vectors.size
  | .body id => id < h.bodies.size
  | .stream id => id < h.streams.size

variable {h : Heap} {roots roots' : List Value} {m n : Node}

theorem Reaches.trans {u v w : Value} (hu : h.Reaches u v) (hv : h.Reaches v w) :
    h.Reaches u w := by
  induction hu with
  | refl => exact hv
  | head _ ih => exact .head (ih hv)
  | tail _ ih => exact .tail (ih hv)
  | element hm _ ih => exact .element hm (ih hv)
  | part hm _ ih => exact .part hm (ih hv)

theorem Reaches.of_parts {h' : Heap} {u v : Value} (hr : h.Reaches u v)
    (hp : ∀ n, ∀ v ∈ h.parts n, v ∈ h'.parts n) : h'.Reaches u v := by
  induction hr with
  | refl => exact .refl _
  | head _ ih => exact .head ih
  | tail _ ih => exact .tail ih
  | element hm _ ih => exact .element (hp _ _ hm) ih
  | part hm _ ih => exact .part (hp _ _ hm) ih

theorem reaches_of_mem_parts {u v : Value} (hu : u.Leads m) (hv : v ∈ h.parts m) :
    h.Reaches u v := by
  induction hu with
  | head _ ih => exact .head (ih hv)
  | tail _ ih => exact .tail (ih hv)
  | vector => exact .element hv (.refl v)
  | function => exact .part hv (.refl v)
  | stream => simp [parts] at hv

namespace InReach

theorem mono (hr : ∀ v ∈ roots, v ∈ roots') : h.InReach roots n → h.InReach roots' n :=
  fun ⟨v, hv, hn⟩ => ⟨v, hr v hv, hn⟩

theorem of_parts {h' : Heap} (hp : ∀ n, ∀ v ∈ h.parts n, v ∈ h'.parts n) :
    h.InReach roots n → h'.InReach roots n :=
  fun ⟨v, hv, u, hu, hn⟩ => ⟨v, hv, u, hu.of_parts hp, hn⟩

theorem part {v : Value} (hm : h.InReach roots m) (hv : v ∈ h.parts m) (hn : v.Leads n) :
    h.InReach roots n := by
  obtain ⟨r, hr, u, hu, hl⟩ := hm
  exact ⟨r, hr, v, hu.trans (reaches_of_mem_parts hl hv), hn⟩

/-- What holds of the nodes that the roots lead to, and is handed on to parts, holds of all nodes in
reach. -/
theorem induction {P : Node → Prop} (root : ∀ v ∈ roots, ∀ n, v.Leads n → P n)
    (part : ∀ m, P m → ∀ v ∈ h.parts m, ∀ n, v.Leads n → P n) (hn : h.InReach roots n) : P n := by
  obtain ⟨v, hv, u, hu, hl⟩ := hn
  have hp := root v hv
  clear hv
  induction hu with
  | refl => exact hp n hl
  | head _ ih => exact ih hl fun n hn => hp n (.head hn)
  | tail _ ih => exact ih hl fun n hn => hp n (.tail hn)
  | element hm _ ih => exact ih hl (part _ (hp _ (.vector _ _)) _ hm)
  | part hm _ ih => exact ih hl (part _ (hp _ (.function _)) _ hm)

end InReach

theorem contains_of_mem_parts {v : Value} (hv : v ∈ h.parts m) : h.Contains m := by
  by_contra hm
  cases m <;> simp only [Contains, Nat.not_lt] at hm <;>
    simp [parts, elements, Array.getD, Nat.not_lt.2 hm] at hv

end Heap

namespace Marks

variable {h : Heap} {m : Marks} {n k : Node}

/-- There is a mark for every node of the heap. -/
structure Fits (m : Marks) (h : Heap) : Prop where
  vectors : m.vectors.size = h.vectors.size
  bodies : m.bodies.size = h.bodies.size
  streams : m.streams.size = h.streams.size

/-- The number of nodes that are not marked. -/
def left (m : Marks) : Nat :=
  m.vectors.count false + m.bodies.count false + m.streams.count false

theorem fits_none (h : Heap) : (none h).Fits h := by
  constructor <;> simp [none]

theorem left_none (h : Heap) :
    (none h).left = h.vectors.size + h.bodies.size + h.streams.size := by
  simp [left, none, Array.count_replicate_self]

theorem Fits.add (hm : m.Fits h) (n : Node) : (m.add n).Fits h := by
  cases n <;> exact ⟨by simp [Marks.add, hm.vectors], by simp [Marks.add, hm.bodies],
    by simp [Marks.add, hm.streams]⟩

theorem Fits.contains (hm : m.Fits h) (hn : m.has n = false) : h.Contains n := by
  by_contra hc
  cases n <;> simp [Heap.Contains, ← hm.vectors, ← hm.bodies, ← hm.streams] at hc <;>
    simp [has, Array.getD, Nat.not_lt.2 hc] at hn

theorem has_none (hn : h.Contains n) : (none h).has n = false := by
  cases n <;> simp_all [has, none, Heap.Contains, Array.getD]

theorem has_add : (m.add n).has k = true ↔ m.has k = true ∨ k = n := by
  cases n <;> cases k <;> simp [has, add, Array.getD_eq_getD_getElem?] <;> grind

theorem count_mark {marks : Array Bool} {i : Nat} (hi : marks.getD i true = false) :
    (marks.setIfInBounds i true).count false + 1 = marks.count false := by
  obtain ⟨hs, hi⟩ : ∃ h : i < marks.size, marks[i] = false := by simpa [Array.getD] using hi
  have hc : 0 < marks.count false := Array.count_pos_iff.2 (hi ▸ Array.getElem_mem hs)
  rw [Array.setIfInBounds, dif_pos hs, Array.count_set hs, hi]
  simp
  omega

theorem left_add (hn : m.has n = false) : (m.add n).left + 1 = m.left := by
  cases n <;> have hc := count_mark hn <;> simp only [left, add] <;> omega

end Marks

namespace Reach

variable {h : Heap} {roots : List Value} {r r' r'' : Reach} {P Q : Node → Prop} {n : Node}

/-- The second has met the nodes with a property besides, and follows those of them that are new. -/
structure Meets (r : Reach) (P : Node → Prop) (r' : Reach) : Prop where
  has (n : Node) : r'.marks.has n = true ↔ r.marks.has n = true ∨ P n
  todo (n : Node) : n ∈ r'.todo ↔ n ∈ r.todo ∨ P n ∧ r.marks.has n = false
  fits (h : Heap) : r.marks.Fits h → r'.marks.Fits h
  left : r'.marks.left + r'.todo.length = r.marks.left + r.todo.length

namespace Meets

theorem none (hp : ∀ n, ¬ P n) : r.Meets P r where
  has n := by simp [hp n]
  todo n := by simp [hp n]
  fits _ h := h
  left := rfl

theorem trans (h : r.Meets P r') (h' : r'.Meets Q r'') : r.Meets (fun n => P n ∨ Q n) r'' where
  has n := by rw [h'.has, h.has, or_assoc]
  todo n := by
    have hn := h.has n
    simp only [h'.todo, h.todo, ← Bool.not_eq_true]
    tauto
  fits _ hf := h'.fits _ (h.fits _ hf)
  left := h'.left.trans h.left

theorem congr (h : r.Meets P r') (hp : ∀ n, P n ↔ Q n) : r.Meets Q r' := by
  rwa [← funext fun n => propext (hp n)]

end Meets

theorem meets_addNode (r : Reach) (n : Node) : r.Meets (· = n) (r.addNode n) := by
  unfold addNode
  split
  · rename_i hn
    refine ⟨fun k => ?_, fun k => ?_, fun _ hf => hf, rfl⟩
    · exact ⟨Or.inl, fun hk => hk.elim id fun hk => hk ▸ hn⟩
    · exact ⟨Or.inl, fun hk => hk.elim id fun ⟨hk, hf⟩ => by simp [hk, hn] at hf⟩
  · rename_i hn
    rw [Bool.not_eq_true] at hn
    refine ⟨fun k => Marks.has_add, fun k => ?_, fun _ hf => hf.add n, ?_⟩
    · rw [List.mem_cons, or_comm]
      exact or_congr_right ⟨fun hk => ⟨hk, hk ▸ hn⟩, And.left⟩
    · have hl := Marks.left_add hn
      simp only [List.length_cons]
      omega

theorem meets_add (r : Reach) (v : Value) : r.Meets v.Leads (r.add v) := by
  induction v generalizing r with
  | cons id head tail ihh iht =>
    refine ((ihh r).trans (iht _)).congr fun n => ?_
    exact ⟨fun h => h.elim .head .tail, fun h => by cases h <;> tauto⟩
  | vector id size =>
    refine (meets_addNode r (.vector id)).congr fun n => ?_
    exact ⟨fun h => h ▸ .vector id size, fun h => by cases h; rfl⟩
  | function f =>
    refine (meets_addNode r (.body f.id)).congr fun n => ?_
    exact ⟨fun h => h ▸ .function f, fun h => by cases h; rfl⟩
  | stream s =>
    refine (meets_addNode r (.stream s.id)).congr fun n => ?_
    exact ⟨fun h => h ▸ .stream s, fun h => by cases h; rfl⟩
  | _ => exact .none fun n h => by cases h

theorem meets_foldl_add (r : Reach) (vs : List Value) :
    r.Meets (fun n => ∃ v ∈ vs, v.Leads n) (vs.foldl add r) := by
  induction vs generalizing r with
  | nil => exact .none fun n => by simp
  | cons v vs ih => exact ((meets_add r v).trans (ih _)).congr fun n => by simp

/-- What holds of a walk from `roots` until there is nothing left to follow. -/
structure Walks (h : Heap) (roots : List Value) (r : Reach) : Prop where
  fits : r.marks.Fits h
  start (n : Node) (v : Value) : v ∈ roots → v.Leads n → r.marks.has n = true
  sound (n : Node) : h.Contains n → r.marks.has n = true → h.InReach roots n
  todo (n : Node) : n ∈ r.todo → h.Contains n ∧ r.marks.has n = true
  closed (m n : Node) (v : Value) : h.Contains m → r.marks.has m = true → m ∉ r.todo →
    v ∈ h.parts m → v.Leads n → r.marks.has n = true

theorem walks_start (h : Heap) (roots : List Value) :
    Walks h roots (roots.foldl add ⟨.none h, []⟩) := by
  have hm := meets_foldl_add ⟨.none h, []⟩ roots
  refine ⟨hm.fits _ (Marks.fits_none h), fun n v hv hn => ?_, fun n hc hn => ?_, fun n hn => ?_, ?_⟩
  · exact (hm.has n).2 (Or.inr ⟨v, hv, hn⟩)
  · rcases (hm.has n).1 hn with hn | ⟨v, hv, hn⟩
    · simp [Marks.has_none hc] at hn
    · exact ⟨v, hv, v, .refl v, hn⟩
  · obtain hn | ⟨hp, hn⟩ := (hm.todo n).1 hn
    · simp at hn
    · exact ⟨(Marks.fits_none h).contains hn, (hm.has n).2 (Or.inr hp)⟩
  · intro m n v hc hmark htodo
    rcases (hm.has m).1 hmark with hn | hp
    · simp [Marks.has_none hc] at hn
    · exact absurd ((hm.todo m).2 (Or.inr ⟨hp, Marks.has_none hc⟩)) htodo

theorem Walks.step {marks : Marks} {n : Node} {todo : List Node}
    (hw : Walks h roots ⟨marks, n :: todo⟩) :
    Walks h roots ((h.parts n).foldl add ⟨marks, todo⟩) := by
  have hm := meets_foldl_add ⟨marks, todo⟩ (h.parts n)
  refine ⟨hm.fits _ hw.fits, fun k v hv hk => ?_, fun k hc hk => ?_, fun k hk => ?_, ?_⟩
  · exact (hm.has k).2 (Or.inl (hw.start k v hv hk))
  · rcases (hm.has k).1 hk with hk | ⟨v, hv, hk⟩
    · exact hw.sound k hc hk
    · obtain ⟨hc, hn⟩ := hw.todo n (by simp)
      exact .part (hw.sound n hc hn) hv hk
  · obtain hk | ⟨hp, hk⟩ := (hm.todo k).1 hk
    · obtain ⟨hc, hk⟩ := hw.todo k (by simp_all)
      exact ⟨hc, (hm.has k).2 (Or.inl hk)⟩
    · exact ⟨hw.fits.contains hk, (hm.has k).2 (Or.inr hp)⟩
  · intro m k v hc hmark htodo hv hk
    refine (hm.has k).2 ?_
    -- what is new is left to be followed, so `m` was met before, or it is followed now
    by_cases hmn : m = n
    · exact Or.inr ⟨v, hmn ▸ hv, hk⟩
    · have hmark : marks.has m = true := by
        by_contra hf
        obtain hf' | hp := (hm.has m).1 hmark
        · exact hf hf'
        · exact htodo ((hm.todo m).2 (Or.inr ⟨hp, by simpa using hf⟩))
      refine Or.inl (hw.closed m k v hc hmark (fun hmem => ?_) hv hk)
      obtain hmem | hmem := List.mem_cons.1 hmem
      · exact hmn hmem
      · exact htodo ((hm.todo m).2 (Or.inl hmem))

theorem Walks.has_iff (hw : Walks h roots r) (ht : r.todo = []) (hc : h.Contains n) :
    r.marks.has n = true ↔ h.InReach roots n := by
  refine ⟨hw.sound n hc, fun hn => ?_⟩
  refine hn.induction (fun v hv n => hw.start n v hv) fun m hm v hv n hl => ?_
  exact hw.closed m n v (Heap.contains_of_mem_parts hv) hm (by simp [ht]) hv hl

/-- A walk that may take as many steps as there are nodes to follow or to meet comes to its end. -/
theorem Walks.follow_has_iff {fuel : Nat} (hw : Walks h roots r)
    (hl : r.marks.left + r.todo.length ≤ fuel) (hc : h.Contains n) :
    (follow h fuel r).has n = true ↔ h.InReach roots n := by
  induction fuel generalizing r with
  | zero => exact hw.has_iff (List.length_eq_zero_iff.1 (by omega)) hc
  | succ fuel ih =>
    obtain ⟨marks, _ | ⟨m, todo⟩⟩ := r
    · exact hw.has_iff rfl hc
    · refine ih hw.step ?_
      rw [(meets_foldl_add ⟨marks, todo⟩ (h.parts m)).left]
      exact Nat.le_of_succ_le_succ hl

end Reach

namespace Heap

variable {h : Heap} {roots : List Value} {n : Node}

/-- The walk from the roots meets just what is in reach of them. -/
theorem reachable_has_iff (hn : h.Contains n) :
    (h.reachable roots).has n = true ↔ h.InReach roots n := by
  refine (Reach.walks_start h roots).follow_has_iff ?_ hn
  rw [(Reach.meets_foldl_add _ roots).left, Marks.left_none]
  simp

end Heap
end KLambda
