import KLambda.Proofs.Footprint
import KLambda.Proofs.Lossless

/-!
What is lost. Letting go of streams closes streams that are out of reach and sends what they held
back to their files. Whatever is in reach stays as it was, and so does every other file.
-/
namespace KLambda

/-- Only a file that bytes were held back from differs. -/
theorem Device.files_flush {p : Device} {d : Disk} {name : String}
    (h : ∀ offset pending, p = .sink name offset pending → pending.isEmpty = true) :
    (p.flush d).2.2.files.get? name = d.files.get? name := by
  fun_cases flush p d
  case case4 file offset pending hp =>
    refine Disk.files_writeAt ?_ offset pending
    rintro rfl
    exact hp (h offset pending rfl)
  all_goals rfl

namespace Parting

variable {h : Heap} {kept : Marks} {p : Parting} {below : Node → Parting → Parting}

/-- What is kept is not lost. -/
structure Spares (kept : Marks) (p : Parting) : Prop where
  marks (n : Node) : kept.has n = true → p.marks.has n = true
  streams (id : Nat) : id ∈ p.streams → kept.has (.stream id) = false

theorem Spares.mark (hp : Spares kept p) (n : Node) : Spares kept ⟨p.marks.add n, p.streams⟩ where
  marks k hk := Marks.has_add.2 (Or.inl (hp.marks k hk))
  streams := hp.streams

theorem Spares.visit (hb : ∀ n p, Spares kept p → Spares kept (below n p)) (v : Value) :
    ∀ behind p, Spares kept p → Spares kept (visit below behind v p) := by
  induction v with
  | cons id head tail ihh iht =>
    intro behind p hp
    cases behind with
    | false => exact iht true _ (ihh false _ hp)
    | true => exact ihh false _ (iht true _ hp)
  | vector id size =>
    intro behind p hp
    cases behind <;> exact hb _ p hp
  | function f =>
    intro behind p hp
    cases behind <;> exact hb _ p hp
  | stream s =>
    intro behind p hp
    cases behind <;>
    · simp only [Parting.visit]
      split
      · exact hp
      · rename_i hs
        refine ⟨(hp.mark _).marks, fun id hid => ?_⟩
        rcases List.mem_cons.1 hid with rfl | hid
        · exact Bool.eq_false_iff.2 fun hk => hs (hp.marks _ hk)
        · exact hp.streams id hid
  | _ =>
    intro behind p hp
    cases behind <;> exact hp

theorem Spares.visitTo (depth : Nat) (v : Value) (hp : Spares kept p) :
    Spares kept (visitTo h depth v p) := by
  induction depth generalizing v p with
  | zero => exact hp
  | succ depth ih =>
    refine Spares.visit (fun n p hp => ?_) v false p hp
    split
    · exact hp
    · exact List.foldrRecOn _ _ (hp.mark n) fun q hq u _ => ih u hq

end Parting

namespace Heap

variable {h h' : Heap} {refs roots : List Value} {kept : Marks} {id : Nat}

/-- Nothing differs but streams out of reach of `roots`, which are closed, and the files that these
held bytes back from. -/
structure Loses (roots : List Value) (h h' : Heap) : Prop where
  rest : h' = { h with streams := h'.streams, disk := h'.disk }
  streams (id : Nat) : h'.streams[id]? = h.streams[id]? ∨ ¬ h.InReach roots (.stream id) ∧
    ∃ (s : Stream) (p : Device), h'.streams[id]? = some { s with link := .closed p }
  disk : h'.disk = { h.disk with files := h'.disk.files }
  files (name : String) (hn : ∀ id s, h.streams[id]? = some s → s.sink? = some (name, true) →
    h.InReach roots (.stream id)) : h'.disk.files.get? name = h.disk.files.get? name

theorem Loses.refl (roots : List Value) (h : Heap) : h.Loses roots h :=
  ⟨rfl, fun _ => Or.inl rfl, rfl, fun _ _ => rfl⟩

theorem Loses.lose (hl : h.Loses roots h') (hid : ¬ h.InReach roots (.stream id)) :
    h.Loses roots (h'.lose id) := by
  unfold Heap.lose
  split
  · rename_i s hs
    split
    · rename_i p hp
      obtain ⟨hdisk, hfiles⟩ := p.leaves_flush h'.disk
      refine ⟨?_, fun k => ?_, ?_, fun name hn => ?_⟩
      · rw [hl.rest]
        rfl
      · by_cases hk : id = k
        · subst hk
          have hlt : id < h'.streams.size := (Array.getElem?_eq_some_iff.1 hs).1
          exact Or.inr ⟨hid, s, _, by simp [setStream, hlt]; rfl⟩
        · simpa [setStream, hk] using hl.streams k
      · refine hdisk.trans ?_
        rw [congrArg Disk.folders hl.disk, congrArg Disk.missed hl.disk]
      · refine (Device.files_flush fun offset pending hs' => ?_).trans (hl.files name hn)
        rcases hl.streams id with hk | ⟨-, t, q, hk⟩
        · by_contra hpend
          refine hid (hn id s (hk.symm.trans hs) ?_)
          rw [Bool.not_eq_true] at hpend
          simp [Stream.sink?, hp, hs', hpend]
        · rw [hk] at hs
          cases hs
          cases hp
    · exact hl
  · exact hl

end Heap
end KLambda
