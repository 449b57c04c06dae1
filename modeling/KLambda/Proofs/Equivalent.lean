import KLambda.Proofs.Above

/-!
Equivalent code: code that does the same in every state. Chains of `and` and `or` and sequences may
hold equivalent parts, and one in another may be taken apart.
-/
namespace KLambda

open Machine

/-- Code whose runs cannot be told apart, whatever the state. -/
def Code.Equivalent (c d : Code) : Prop :=
  ∀ (host : Host) (mode : Mode) (l : Locals) (S : List Frame) (w : World),
    SameRuns host mode ⟨.eval c l, S, w⟩ ⟨.eval d l, S, w⟩

/-- An `and` of codes, or an `or`. -/
def Code.chain (all : Bool) (codes : List Code) : Code := if all then .all codes else .any codes

/-- What is left of a chain. -/
def Frame.chain (all : Bool) (rest : List Code) (l : Locals) : Frame :=
  if all then .all rest l else .any rest l

namespace Machine

variable {host : Host} {mode : Mode} {s t : State} {l : Locals} {S : List Frame} {w : World}
  {all : Bool} {c d : Code} {cs : List Code}

/-- A move without an effect. -/
theorem sameRuns_move (hs : result? mode s = none) (he : effect? s = none)
    (h : Machine.move host s = t) : SameRuns host mode s t := by
  subst h
  exact Runs.sameRuns (.silent hs he (.refl _))

/-- Frames that go on alike with every value and every error may stand for each other. -/
theorem sameRuns_below {a b : Frame} {T : List Frame} (ha : a.Performs) (hb : b.Performs)
    (hv : ∀ v w, SameRuns host mode ⟨.give (.done v), a :: S, w⟩ ⟨.give (.done v), b :: T, w⟩)
    (he : ∀ e w, SameRuns host mode ⟨.raise e, a :: S, w⟩ ⟨.raise e, b :: T, w⟩) (c : Code) :
    SameRuns host mode ⟨.eval c l, a :: S, w⟩ ⟨.eval c l, b :: T, w⟩ := by
  refine sameRuns_onto ha hb (fun s' hs => ?_) ⟨.eval c l, [], w⟩
  cases hs with
  | done v w => exact hv v w
  | raise e w => exact he e w

theorem chain_performs (all : Bool) (cs : List Code) (l : Locals) :
    (Frame.chain all cs l).Performs := by
  cases all <;> trivial

theorem sameRuns_chain_nil : SameRuns host mode ⟨.eval (.chain all []) l, S, w⟩
    ⟨.give (.done (.bool all)), S, w⟩ := by
  cases all <;> exact sameRuns_move rfl rfl rfl

theorem sameRuns_chain_cons : SameRuns host mode ⟨.eval (.chain all (c :: cs)) l, S, w⟩
    ⟨.eval c l, .chain all cs l :: S, w⟩ := by
  cases all <;> exact sameRuns_move rfl rfl rfl

theorem sameRuns_chain_raise {e : Error} : SameRuns host mode
    ⟨.raise e, .chain all cs l :: S, w⟩ ⟨.raise e, S, w⟩ := by
  cases all <;> exact sameRuns_move rfl rfl rfl

theorem sameRuns_chain_mistyped {v : Value} {e : Error} (hv : v.toBool = .error e) :
    SameRuns host mode ⟨.give (.done v), .chain all cs l :: S, w⟩ ⟨.raise e, S, w⟩ := by
  cases all <;> refine sameRuns_move rfl rfl ?_ <;>
    simp [Machine.move, step, Frame.chain, resumeFrame, hv]

theorem sameRuns_chain_next {v : Value} (hv : v.toBool = .ok all) :
    SameRuns host mode ⟨.give (.done v), .chain all cs l :: S, w⟩
      ⟨.eval (.chain all cs) l, S, w⟩ := by
  cases all <;> refine sameRuns_move rfl rfl ?_ <;>
    simp [Machine.move, step, Frame.chain, Code.chain, resumeFrame, hv]

theorem sameRuns_chain_decided {v : Value} (hv : v.toBool = .ok !all) :
    SameRuns host mode ⟨.give (.done v), .chain all cs l :: S, w⟩
      ⟨.give (.done (.bool !all)), S, w⟩ := by
  cases all <;> refine sameRuns_move rfl rfl ?_ <;>
    simp_all [Machine.move, step, Frame.chain, resumeFrame, giveValue]

theorem seq_performs (cs : List Code) (d : Code) (l : Locals) : (Frame.seq cs d l).Performs :=
  trivial

theorem sameRuns_seq_nil : SameRuns host mode ⟨.eval (.seq [] d) l, S, w⟩ ⟨.eval d l, S, w⟩ :=
  sameRuns_move rfl rfl rfl

theorem sameRuns_seq_cons : SameRuns host mode ⟨.eval (.seq (c :: cs) d) l, S, w⟩
    ⟨.eval c l, .seq cs d l :: S, w⟩ := sameRuns_move rfl rfl rfl

theorem sameRuns_seq_raise {e : Error} : SameRuns host mode
    ⟨.raise e, .seq cs d l :: S, w⟩ ⟨.raise e, S, w⟩ := sameRuns_move rfl rfl rfl

theorem sameRuns_seq_next {v : Value} : SameRuns host mode
    ⟨.give (.done v), .seq cs d l :: S, w⟩ ⟨.eval (.seq cs d) l, S, w⟩ := sameRuns_move rfl rfl rfl

end Machine

namespace Code.Equivalent

variable {c d e : Code} {cs ds : List Code} {all : Bool}

theorem refl (c : Code) : c.Equivalent c := fun _ _ _ _ _ => .refl _

theorem symm (h : c.Equivalent d) : d.Equivalent c :=
  fun host mode l S w => (h host mode l S w).symm

theorem trans (h : c.Equivalent d) (h' : d.Equivalent e) : c.Equivalent e :=
  fun host mode l S w => (h host mode l S w).trans (h' host mode l S w)

theorem chain_cons (hc : c.Equivalent d) (hs : (Code.chain all cs).Equivalent (.chain all ds)) :
    (Code.chain all (c :: cs)).Equivalent (.chain all (d :: ds)) := by
  intro host mode l S w
  refine sameRuns_chain_cons.trans ((hc host mode l _ w).trans (.trans ?_ sameRuns_chain_cons.symm))
  refine sameRuns_below (chain_performs _ _ _) (chain_performs _ _ _) (fun v w => ?_)
    (fun e w => sameRuns_chain_raise.trans sameRuns_chain_raise.symm) d
  cases hv : v.toBool with
  | error e => exact (sameRuns_chain_mistyped hv).trans (sameRuns_chain_mistyped hv).symm
  | ok b =>
    by_cases hb : b = all
    · subst hb
      exact (sameRuns_chain_next hv).trans
        ((hs host mode l S w).trans (sameRuns_chain_next hv).symm)
    · obtain rfl := Bool.eq_not.2 hb
      exact (sameRuns_chain_decided hv).trans (sameRuns_chain_decided hv).symm

/-- A chain that begins with one of its own kind is one chain. -/
theorem chain_nested (cs ds : List Code) :
    (Code.chain all (.chain all cs :: ds)).Equivalent (.chain all (cs ++ ds)) := by
  induction cs with
  | nil =>
    intro host mode l S w
    exact sameRuns_chain_cons.trans
      (sameRuns_chain_nil.trans (sameRuns_chain_next (by cases all <;> rfl)))
  | cons c cs ih =>
    intro host mode l S w
    refine sameRuns_chain_cons.trans (sameRuns_chain_cons.trans
      (.trans ?_ sameRuns_chain_cons.symm))
    refine sameRuns_below (chain_performs _ _ _) (chain_performs _ _ _) (fun v w => ?_)
      (fun e w => sameRuns_chain_raise.trans
        (sameRuns_chain_raise.trans sameRuns_chain_raise.symm)) c
    cases hv : v.toBool with
    | error e =>
      exact (sameRuns_chain_mistyped hv).trans
        (sameRuns_chain_raise.trans (sameRuns_chain_mistyped hv).symm)
    | ok b =>
      by_cases hb : b = all
      · subst hb
        exact (sameRuns_chain_next hv).trans (sameRuns_chain_cons.symm.trans
          ((ih host mode l S w).trans (sameRuns_chain_next hv).symm))
      · obtain rfl := Bool.eq_not.2 hb
        exact (sameRuns_chain_decided hv).trans
          ((sameRuns_chain_decided (by cases all <;> rfl)).trans (sameRuns_chain_decided hv).symm)

theorem seq_nil (d : Code) : (Code.seq [] d).Equivalent d := fun _ _ _ _ _ => sameRuns_seq_nil

theorem seq_cons {c' d' : Code} (hc : c.Equivalent d)
    (hs : (Code.seq cs c').Equivalent (.seq ds d')) :
    (Code.seq (c :: cs) c').Equivalent (.seq (d :: ds) d') := by
  intro host mode l S w
  refine sameRuns_seq_cons.trans ((hc host mode l _ w).trans (.trans ?_ sameRuns_seq_cons.symm))
  exact sameRuns_below (seq_performs _ _ _) (seq_performs _ _ _)
    (fun v w => sameRuns_seq_next.trans ((hs host mode l S w).trans sameRuns_seq_next.symm))
    (fun e w => sameRuns_seq_raise.trans sameRuns_seq_raise.symm) d

/-- A sequence that begins with a sequence is one sequence. -/
theorem seq_nested (cs ds : List Code) (c d : Code) :
    (Code.seq (.seq cs c :: ds) d).Equivalent (.seq (cs ++ c :: ds) d) := by
  induction cs with
  | nil => exact seq_cons (seq_nil c) (refl _)
  | cons e cs ih =>
    intro host mode l S w
    refine sameRuns_seq_cons.trans (sameRuns_seq_cons.trans (.trans ?_ sameRuns_seq_cons.symm))
    exact sameRuns_below (seq_performs _ _ _) (seq_performs _ _ _)
      (fun v w => sameRuns_seq_next.trans
        (sameRuns_seq_cons.symm.trans ((ih host mode l S w).trans sameRuns_seq_next.symm)))
      (fun e w => sameRuns_seq_raise.trans (sameRuns_seq_raise.trans sameRuns_seq_raise.symm)) e

/-- A constant has no effect. -/
theorem seq_const (k : Literal) (cs : List Code) (d : Code) :
    (Code.seq (.const k :: cs) d).Equivalent (.seq cs d) := by
  intro host mode l S w
  have give : SameRuns host mode ⟨.eval (.const k) l, .seq cs d l :: S, w⟩
      ⟨.give (.done k.value), .seq cs d l :: S, w⟩ := sameRuns_move rfl rfl rfl
  exact sameRuns_seq_cons.trans (give.trans sameRuns_seq_next)

end Code.Equivalent
end KLambda
