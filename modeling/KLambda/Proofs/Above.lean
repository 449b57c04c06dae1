import KLambda.Proofs.Correspondence
import KLambda.Proofs.Frames

/-!
What happens above a frame. Until a value or an error comes back to it, a frame only performs the
calls that are handed down to it, and every frame that does more than keep something performs them
alike. So the part of a run that stays above a frame is the same above any other, and what comes
back decides everything else.
-/
namespace KLambda

/-- A frame that performs the calls that are handed down to it. -/
def Frame.Performs : Frame → Prop
  | .keep _ => False
  | _ => True

/-- What comes back from above a frame: a value or an error. -/
inductive State.Returned : State → Prop
  | done (v : Value) (w : World) : Returned ⟨.give (.done v), [], w⟩
  | raise (e : Error) (w : World) : Returned ⟨.raise e, [], w⟩

namespace Machine

variable {host : Host} {mode : Mode} {s s' t : State} {es : List Effect} {n : Nat}
  {a b : Frame} {S T : List Frame}

/-- `n` moves that are the same above every frame that performs calls. -/
def Above (host : Host) (mode : Mode) (n : Nat) (s : State) (es : List Effect) (s' : State) :
    Prop :=
  ∀ (a : Frame) (S : List Frame), a.Performs →
    Runs host mode n (s.onto (a :: S)) es (s'.onto (a :: S))

theorem Above.refl (s : State) : Above host mode 0 s [] s := fun _ _ _ => .refl _

theorem Above.move (hs : result? mode (s.onto (a :: S)) = none) (ha : result? .async s = none)
    (h : Above host mode n (Machine.move host s) es s') :
    Above host mode (n + 1) s ((effect? s).toList ++ es) s' := by
  intro b T hb
  have hr := h b T hb
  rw [← move_onto _ ha] at hr
  rw [← effect?_onto (b :: T) ha]
  exact .move ((result?_onto_cons s b a T S).trans hs) hr

theorem Above.bounce {f : Function} {args : List Value} {w : World}
    (h : Above host mode n ⟨.run f args, [], w⟩ es s') :
    Above host mode (n + 1) ⟨.give (.bounce f args), [], w⟩ es s' := by
  intro b T hb
  refine .silent rfl rfl ?_
  cases b with
  | keep vs => exact hb.elim
  | _ => exact h _ T hb

/-- A run stays above a frame, or goes on from what comes back to it. -/
theorem Runs.above (h : Runs host mode n (s.onto (a :: S)) es t) (ha : a.Performs) :
    (∃ s', t = s'.onto (a :: S) ∧ Above host mode n s es s') ∨
      ∃ k m es₁ es₂ s', es = es₁ ++ es₂ ∧ Above host mode k s es₁ s' ∧ s'.Returned ∧
        Runs host mode m (s'.onto (a :: S)) es₂ t := by
  generalize hx : s.onto (a :: S) = x at h
  induction h generalizing s with
  | refl => exact Or.inl ⟨s, hx.symm, .refl s⟩
  | @move n x t es hs hr ih =>
    subst hx
    cases hs' : result? .async s with
    | none =>
      rw [effect?_onto _ hs']
      rcases ih (move_onto _ hs').symm with ⟨s', rfl, h⟩ | ⟨k, m, es₁, es₂, s', rfl, h, hd, ht⟩
      · exact Or.inl ⟨s', rfl, h.move hs hs'⟩
      · refine Or.inr ⟨k + 1, m, _, es₂, s', ?_, h.move hs hs', hd, ht⟩
        rw [List.append_assoc]
    | some o =>
      obtain ⟨c, R, w⟩ := s
      rcases R with _ | ⟨frame, R⟩
      · cases c with
        | give step =>
          cases step with
          | done v => exact Or.inr ⟨0, _, [], _, _, rfl, .refl _, .done v w, .move hs hr⟩
          | bounce f args =>
            have hm : State.onto ⟨.run f args, [], w⟩ (a :: S) =
                Machine.move host (State.onto ⟨.give (.bounce f args), [], w⟩ (a :: S)) := by
              cases a with
              | keep vs => exact ha.elim
              | _ => rfl
            rcases ih hm with ⟨s', rfl, h⟩ | ⟨k, m, es₁, es₂, s', rfl, h, hd, ht⟩
            · exact Or.inl ⟨s', rfl, h.bounce⟩
            · exact Or.inr ⟨k + 1, m, es₁, es₂, s', rfl, h.bounce, hd, ht⟩
        | raise e => exact Or.inr ⟨0, _, [], _, _, rfl, .refl _, .raise e w, .move hs hr⟩
        | _ => simp [result?] at hs'
      · cases c <;> simp [result?] at hs'

/-- Where a run above a frame comes to its end, it does so above any other. -/
theorem Above.ends (h : Above host mode n s es s') {o : Outcome Step}
    (ho : result? mode (s'.onto (a :: S)) = some o) (hb : b.Performs) :
    Ends host mode (s.onto (b :: T)) es (o, s'.world) :=
  ⟨n, s'.onto (b :: T), h b T hb, (result?_onto_cons s' b a T S).trans ho, rfl⟩

/-- Half of what frames that go on alike give. -/
theorem Above.transfer (ha : a.Performs) (hb : b.Performs)
    (h : ∀ s' : State, s'.Returned →
      SameRuns host mode (s'.onto (a :: S)) (s'.onto (b :: T))) (s : State) :
    (∀ es r, Ends host mode (s.onto (a :: S)) es r → Ends host mode (s.onto (b :: T)) es r) ∧
      ∀ es, Emits host mode (s.onto (a :: S)) es → Emits host mode (s.onto (b :: T)) es := by
  constructor
  · rintro es ⟨o, w⟩ ⟨n, t, hr, ho, hw⟩
    rcases hr.above ha with ⟨s', rfl, hs⟩ | ⟨k, m, es₁, es₂, s', rfl, hs, hd, ht⟩
    · obtain rfl : s'.world = w := hw
      exact hs.ends ho hb
    · exact (hs b T hb).ends (((h s' hd).1 es₂ (o, w)).1 ⟨m, t, ht, ho, hw⟩)
  · rintro es ⟨n, t, hr⟩
    rcases hr.above ha with ⟨s', rfl, hs⟩ | ⟨k, m, es₁, es₂, s', rfl, hs, hd, ht⟩
    · exact ⟨n, _, hs b T hb⟩
    · exact (hs b T hb).emits (((h s' hd).2 es₂).1 ⟨m, t, ht⟩)

/-- Two frames that go on alike from whatever comes back to them have the same runs above. -/
theorem sameRuns_onto (ha : a.Performs) (hb : b.Performs)
    (h : ∀ s' : State, s'.Returned →
      SameRuns host mode (s'.onto (a :: S)) (s'.onto (b :: T))) (s : State) :
    SameRuns host mode (s.onto (a :: S)) (s.onto (b :: T)) := by
  obtain ⟨hends, hemits⟩ := Above.transfer ha hb h s
  obtain ⟨hends', hemits'⟩ := Above.transfer hb ha (fun s' hd => (h s' hd).symm) s
  exact ⟨fun es r => ⟨hends es r, hends' es r⟩, fun es => ⟨hemits es, hemits' es⟩⟩

theorem ends_settled (v : Value) (l : Locals) (w : World) :
    Ends host mode ⟨.give (.done v), [.settle l], w⟩ [] (.ok (.done v), w) :=
  ⟨1, _, .silent rfl rfl (.refl _), rfl, rfl⟩

/-- A frame that lets every error through. -/
def Passes (a : Frame) : Prop :=
  ∀ (e : Error) (w : World), unwind [] w e a = ⟨.raise e, [], w⟩

theorem ends_raised (ha : Passes a) (e : Error) (w : World) :
    Ends host mode ⟨.raise e, [a], w⟩ [] (.error e, w) := by
  refine ⟨1, ⟨.raise e, [], w⟩, .silent rfl rfl ?_, rfl, rfl⟩
  rw [show move host ⟨.raise e, [a], w⟩ = _ from ha e w]
  exact .refl _

theorem result?_onto_error {o : Outcome Step} (h : result? mode (s.onto [a]) = some o) :
    o = .error (.unsupported .suspension) := by
  obtain ⟨c, R, w⟩ := s
  cases R <;> cases c <;> cases mode <;> simp_all [result?]

/-- A run above a frame that lets errors through ends with an error, which does not depend on the
frame, or the frame is given a value. -/
theorem Ends.onto_cases {r : Outcome Step × World} (h : Ends host mode (s.onto [a]) es r)
    (ha : a.Performs) (hp : Passes a) :
    (∃ e, r.1 = .error e ∧
      ∀ b : Frame, b.Performs → Passes b → Ends host mode (s.onto [b]) es r) ∨
    ∃ v w es₁ es₂ n, es = es₁ ++ es₂ ∧ Above host mode n s es₁ ⟨.give (.done v), [], w⟩ ∧
      Ends host mode ⟨.give (.done v), [a], w⟩ es₂ r := by
  obtain ⟨n, t, hr, ho, hw⟩ := h
  rcases hr.above ha with ⟨s', rfl, hs⟩ | ⟨k, m, es₁, es₂, s', rfl, hs, hd, ht⟩
  · refine Or.inl ⟨_, result?_onto_error ho, fun b hb _ => ?_⟩
    have hx := hs.ends ho hb (T := [])
    rwa [show (r.1, s'.world) = r from Prod.ext rfl hw] at hx
  · cases hd with
    | done v w => exact Or.inr ⟨v, w, es₁, es₂, k, rfl, hs, m, t, ht, ho, hw⟩
    | raise e w =>
      obtain ⟨rfl, rfl⟩ := Ends.unique (ends_raised hp e w) ⟨m, t, ht, ho, hw⟩
      exact Or.inl ⟨e, rfl, fun b hb hpb => (hs b [] hb).ends (ends_raised hpb e w)⟩

/-- What has a value where it is settled has it above every frame. -/
theorem Ends.above {v : Value} {w : World}
    (h : Ends host mode (s.onto [.settle []]) es (.ok (.done v), w)) :
    ∃ n, Above host mode n s es ⟨.give (.done v), [], w⟩ := by
  rcases h.onto_cases trivial fun _ _ => rfl with ⟨e, he, -⟩ | ⟨u, w', es₁, es₂, n, rfl, hs, hr⟩
  · cases he
  · obtain ⟨rfl, heq⟩ := (ends_settled u [] w').unique hr
    cases heq
    exact ⟨n, by simpa using hs⟩

/-- What comes to a result above a frame that lets errors through has a value first. -/
theorem Ends.operand {step : Step} {w : World}
    (h : Ends host mode (s.onto [a]) es (.ok step, w)) (ha : a.Performs) (hp : Passes a) :
    ∃ v es₁ es₂ w₁, es = es₁ ++ es₂ ∧
      Ends host mode (s.onto [.settle []]) es₁ (.ok (.done v), w₁) ∧
      Ends host mode ⟨.give (.done v), [a], w₁⟩ es₂ (.ok step, w) := by
  rcases h.onto_cases ha hp with ⟨e, he, -⟩ | ⟨v, w₁, es₁, es₂, n, rfl, hs, hr⟩
  · cases he
  · refine ⟨v, es₁, es₂, w₁, rfl, ?_, hr⟩
    simpa using (hs (.settle []) [] trivial).ends (ends_settled v [] w₁)

/-- What happens above a frame that lets errors through is what happens where the value is settled;
an error ends the run, and with a value the frame goes on. -/
theorem ends_onto_iff {r : Outcome Step × World} (ha : a.Performs) (hp : Passes a) :
    Ends host mode (s.onto [a]) es r ↔
      (∃ e, r.1 = .error e) ∧ Ends host mode (s.onto [.settle []]) es r ∨
      ∃ v w es₁ es₂, es = es₁ ++ es₂ ∧
        Ends host mode (s.onto [.settle []]) es₁ (.ok (.done v), w) ∧
        Ends host mode ⟨.give (.done v), [a], w⟩ es₂ r := by
  constructor
  · intro h
    rcases h.onto_cases ha hp with ⟨e, he, hs⟩ | ⟨v, w, es₁, es₂, n, rfl, hs, hr⟩
    · exact Or.inl ⟨⟨e, he⟩, hs (.settle []) trivial fun _ _ => rfl⟩
    · refine Or.inr ⟨v, w, es₁, es₂, rfl, ?_, hr⟩
      simpa using (hs (.settle []) [] trivial).ends (ends_settled v [] w)
  · rintro (⟨⟨e, he⟩, h⟩ | ⟨v, w, es₁, es₂, rfl, h, hr⟩)
    · rcases h.onto_cases trivial fun _ _ => rfl with ⟨-, -, hs⟩ | ⟨u, w', es₁, es₂, n, -, -, hr⟩
      · exact hs a ha hp
      · obtain ⟨-, rfl⟩ := (ends_settled u [] w').unique hr
        cases he
    · obtain ⟨n, hs⟩ := h.above
      exact (hs a [] ha).ends hr

end Machine
end KLambda
