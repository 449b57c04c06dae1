import KLambda.Proofs.Run

/-!
Pursuits and correspondences: relations between states that two runs can keep up side by side, each
taking as many moves as it needs. States that are related end in related ways and have related
effects; those that correspond have corresponding effects in the same order.
-/
namespace KLambda.Machine

/-- A relation between states, between what they bring about and between results. From states that
are related, both runs end, or both move on to states that are related again. Effects that are
related can be taken apart alike on both sides. -/
structure Pursuit (next : State → State) (mode : Mode) where
  states : State → State → Prop
  effects : List Effect → List Effect → Prop
  results : Outcome Step × World → Outcome Step × World → Prop
  append {es es' fs fs' : List Effect} :
    effects es es' → effects fs fs' → effects (es ++ fs) (es' ++ fs')
  left {es fs gs : List Effect} :
    effects (es ++ fs) gs → ∃ es' fs', gs = es' ++ fs' ∧ effects es es'
  right {es fs gs : List Effect} :
    effects gs (es ++ fs) → ∃ es' fs', gs = es' ++ fs' ∧ effects es' es
  progress {s t : State} (h : states s t) :
    (∃ es es' r r', Ends next mode s es r ∧ Ends next mode t es' r' ∧ effects es es' ∧
      results r r') ∨
    ∃ m n es es' s' t', Runs next mode (m + 1) s es s' ∧ Runs next mode (n + 1) t es' t' ∧
      effects es es' ∧ states s' t'

variable {next : State → State} {mode : Mode} {s t : State} {es : List Effect}
  {r : Outcome Step × World} {m n : Nat}

namespace Pursuit

/-- The same, seen from the other side. -/
def swap (c : Pursuit next mode) : Pursuit next mode where
  states s t := c.states t s
  effects es es' := c.effects es' es
  results r r' := c.results r' r
  append := c.append
  left := c.right
  right := c.left
  progress h := by
    rcases c.progress h with ⟨es, es', r, r', hs, ht, he, hr⟩ |
      ⟨m, n, es, es', s', t', hs, ht, he, hst⟩
    · exact Or.inl ⟨es', es, r', r, ht, hs, he, hr⟩
    · exact Or.inr ⟨n, m, es', es, t', s', ht, hs, he, hst⟩

variable (c : Pursuit next mode)

/-- An end on one side comes with an end on the other. The induction is on the moves that are left
on the first side, of which every round takes at least one. -/
theorem ends (h : c.states s t) (he : Ends next mode s es r) :
    ∃ es' r', Ends next mode t es' r' ∧ c.effects es es' ∧ c.results r r' := by
  obtain ⟨k, u, hu, hr, hw⟩ := he
  induction k using Nat.strongRecOn generalizing s t es with
  | _ k ih =>
    rcases c.progress h with ⟨fs, fs', q, q', hs, ht, hf, hq⟩ |
      ⟨m, n, fs, fs', s', t', hs, ht, hf, hst⟩
    · obtain ⟨rfl, rfl⟩ := Ends.unique ⟨k, u, hu, hr, hw⟩ hs
      exact ⟨fs', q', ht, hf, hq⟩
    · obtain ⟨d, rfl⟩ := Nat.exists_eq_add_of_le (hs.le_of_result hu hr)
      obtain ⟨gs, rfl, hg⟩ := hs.rest hu
      obtain ⟨gs', r', ht', hgs, hr'⟩ := ih d (by omega) hst hg
      exact ⟨fs' ++ gs', r', ht.ends ht', c.append hf hgs, hr'⟩

/-- The effects of the shorter part of a run are related to those of a part of the other run. -/
theorem emits_of_append {fs es' : List Effect} (ht : Emits next mode t es')
    (he : c.effects (es ++ fs) es') : ∃ gs, Emits next mode t gs ∧ c.effects es gs := by
  obtain ⟨gs, hs, rfl, hg⟩ := c.left he
  exact ⟨gs, ht.of_append, hg⟩

/-- Effects on one side come with effects on the other, though neither run may ever end. -/
theorem emits (h : c.states s t) (he : Emits next mode s es) :
    ∃ es', Emits next mode t es' ∧ c.effects es es' := by
  obtain ⟨k, u, hu⟩ := he
  induction k using Nat.strongRecOn generalizing s t es with
  | _ k ih =>
    rcases c.progress h with ⟨fs, fs', q, q', ⟨a, v, hv, hq, -⟩, ⟨b, v', hv', -⟩, hf, -⟩ |
      ⟨m, n, fs, fs', s', t', hs, ht, hf, hst⟩
    · obtain ⟨d, rfl⟩ := Nat.exists_eq_add_of_le (hu.le_of_result hv hq)
      obtain ⟨gs, rfl, -⟩ := hu.rest hv
      exact c.emits_of_append ⟨b, v', hv'⟩ hf
    · rcases Nat.lt_or_ge k (m + 1) with hk | hk
      · obtain ⟨d, hd⟩ := Nat.exists_eq_add_of_le (Nat.le_of_lt hk)
        obtain ⟨gs, rfl, -⟩ := Runs.rest hu (hd ▸ hs)
        exact c.emits_of_append ⟨n + 1, t', ht⟩ hf
      · obtain ⟨d, rfl⟩ := Nat.exists_eq_add_of_le hk
        obtain ⟨gs, rfl, hg⟩ := hs.rest hu
        obtain ⟨gs', ht', hgs⟩ := ih d (by omega) hst hg
        exact ⟨fs' ++ gs', ht.emits ht', c.append hf hgs⟩

end Pursuit

/-- A relation between states, effects and results. From states that correspond, both runs end, or
both move on to states that correspond again, with as many effects. -/
structure Correspondence (next : State → State) (mode : Mode) where
  states : State → State → Prop
  effects : Effect → Effect → Prop
  results : Outcome Step × World → Outcome Step × World → Prop
  progress {s t : State} (h : states s t) :
    (∃ es es' r r', Ends next mode s es r ∧ Ends next mode t es' r' ∧
      List.Forall₂ effects es es' ∧ results r r') ∨
    ∃ m n es es' s' t', Runs next mode (m + 1) s es s' ∧ Runs next mode (n + 1) t es' t' ∧
      List.Forall₂ effects es es' ∧ states s' t'

namespace Correspondence

/-- The same correspondence, seen from the other side. -/
def swap (c : Correspondence next mode) : Correspondence next mode where
  states s t := c.states t s
  effects e e' := c.effects e' e
  results r r' := c.results r' r
  progress h := by
    rcases c.progress h with ⟨es, es', r, r', hs, ht, he, hr⟩ |
      ⟨m, n, es, es', s', t', hs, ht, he, hst⟩
    · exact Or.inl ⟨es', es, r', r, ht, hs, he.flip, hr⟩
    · exact Or.inr ⟨n, m, es', es, t', s', ht, hs, he.flip, hst⟩

theorem take {effects : Effect → Effect → Prop} {es fs gs : List Effect}
    (h : List.Forall₂ effects (es ++ fs) gs) :
    ∃ es' fs', gs = es' ++ fs' ∧ List.Forall₂ effects es es' :=
  ⟨gs.take es.length, gs.drop es.length, (List.take_append_drop ..).symm,
    by simpa using List.forall₂_take es.length h⟩

/-- A correspondence relates effects one by one. -/
def pursuit (c : Correspondence next mode) : Pursuit next mode where
  states := c.states
  effects := List.Forall₂ c.effects
  results := c.results
  append h h' := List.rel_append h h'
  left := take
  right h := by
    obtain ⟨es', fs', rfl, he⟩ := take h.flip
    exact ⟨es', fs', rfl, he.flip⟩
  progress := c.progress

variable (c : Correspondence next mode)

theorem ends (h : c.states s t) (he : Ends next mode s es r) :
    ∃ es' r', Ends next mode t es' r' ∧ List.Forall₂ c.effects es es' ∧ c.results r r' :=
  c.pursuit.ends h he

theorem emits (h : c.states s t) (he : Emits next mode s es) :
    ∃ es', Emits next mode t es' ∧ List.Forall₂ c.effects es es' :=
  c.pursuit.emits h he

end Correspondence

/-- Two states whose runs cannot be told apart: they come to the same ends, and have the same
effects in the same order whether or not they end. -/
def SameRuns (next : State → State) (mode : Mode) (s t : State) : Prop :=
  (∀ es r, Ends next mode s es r ↔ Ends next mode t es r) ∧
    ∀ es, Emits next mode s es ↔ Emits next mode t es

theorem SameRuns.refl (s : State) : SameRuns next mode s s :=
  ⟨fun _ _ => Iff.rfl, fun _ => Iff.rfl⟩

theorem SameRuns.symm (h : SameRuns next mode s t) : SameRuns next mode t s :=
  ⟨fun es r => (h.1 es r).symm, fun es => (h.2 es).symm⟩

theorem SameRuns.trans {u : State} (h : SameRuns next mode s t) (h' : SameRuns next mode t u) :
    SameRuns next mode s u :=
  ⟨fun es r => (h.1 es r).trans (h'.1 es r), fun es => (h.2 es).trans (h'.2 es)⟩

/-- Moves without effects change nothing about what a state comes to. -/
theorem Runs.sameRuns {n : Nat} (h : Runs next mode n s [] t) : SameRuns next mode s t := by
  refine ⟨fun es r => ⟨?_, fun he => h.ends he⟩, fun es => ⟨?_, fun he => h.emits he⟩⟩
  · rintro ⟨k, u, hu, hr, hw⟩
    obtain ⟨d, rfl⟩ := Nat.exists_eq_add_of_le (h.le_of_result hu hr)
    obtain ⟨gs, rfl, hg⟩ := h.rest hu
    exact ⟨d, u, hg, hr, hw⟩
  · rintro ⟨k, u, hu⟩
    rcases Nat.le_total n k with hk | hk
    · obtain ⟨d, rfl⟩ := Nat.exists_eq_add_of_le hk
      obtain ⟨gs, rfl, hg⟩ := h.rest hu
      exact ⟨d, u, hg⟩
    · obtain ⟨d, rfl⟩ := Nat.exists_eq_add_of_le hk
      obtain ⟨gs, hgs, -⟩ := hu.rest h
      obtain ⟨rfl, -⟩ := List.append_eq_nil_iff.1 hgs.symm
      exact ⟨0, t, .refl t⟩

/-- Half of what a correspondence by equality gives. -/
theorem Correspondence.sameRuns_mp (c : Correspondence next mode)
    (he : ∀ e e', c.effects e e' → e = e') (hr : ∀ r r', c.results r r' → r = r')
    (h : c.states s t) :
    (∀ es r, Ends next mode s es r → Ends next mode t es r) ∧
      ∀ es, Emits next mode s es → Emits next mode t es := by
  have eq_of : ∀ es es', List.Forall₂ c.effects es es' → es = es' := by
    intro es es' h
    simpa [List.forall₂_eq_eq_eq] using h.imp he
  constructor
  · intro es r hs
    obtain ⟨es', r', ht, hes, hrr⟩ := c.ends h hs
    obtain rfl := eq_of es es' hes
    obtain rfl := hr r r' hrr
    exact ht
  · intro es hs
    obtain ⟨es', ht, hes⟩ := c.emits h hs
    obtain rfl := eq_of es es' hes
    exact ht

theorem Correspondence.sameRuns (c : Correspondence next mode)
    (he : ∀ e e', c.effects e e' → e = e') (hr : ∀ r r', c.results r r' → r = r')
    (h : c.states s t) : SameRuns next mode s t := by
  obtain ⟨hends, hemits⟩ := c.sameRuns_mp he hr h
  obtain ⟨hends', hemits'⟩ := c.swap.sameRuns_mp (fun e e' h => (he e' e h).symm)
    (fun r r' h => (hr r' r h).symm) h
  exact ⟨fun es r => ⟨hends es r, hends' es r⟩, fun es => ⟨hemits es, hemits' es⟩⟩

/-- Driving to a value with enough fuel is running to the end. -/
theorem exists_valueOf_drive_iff {q : Outcome Value × World} (hq : q.1 ≠ .exhausted) :
    (∃ fuel, valueOf (drive next mode fuel s) = q) ↔
      ∃ es r, Ends next mode s es r ∧ valueOf r = q := by
  constructor
  · rintro ⟨fuel, rfl⟩
    have hr : (drive next mode fuel s).1 ≠ .exhausted := by
      intro he
      apply hq
      rcases hd : drive next mode fuel s with ⟨o, w'⟩
      rw [hd] at he
      simp only at he
      subst he
      simp [valueOf]
    obtain ⟨es, he⟩ := exists_drive_eq_iff.1 ⟨fuel, rfl, hr⟩
    exact ⟨es, _, he, rfl⟩
  · rintro ⟨es, r, he, rfl⟩
    obtain ⟨fuel, hf, -⟩ := exists_drive_eq_iff.2 ⟨es, he⟩
    exact ⟨fuel, by rw [hf]⟩

theorem exists_settle_eq_iff {control : Control} {w : World} {q : Outcome Value × World}
    (hq : q.1 ≠ .exhausted) :
    (∃ fuel, settle next mode fuel control w = q) ↔
      ∃ es r, Ends next mode ⟨control, [.settle []], w⟩ es r ∧ valueOf r = q :=
  exists_valueOf_drive_iff hq

/-- However much fuel there is, what comes of it is the same, unless it is too little. -/
theorem valueOf_drive_unique (hm : (valueOf (drive next mode m s)).1 ≠ .exhausted)
    (hn : (valueOf (drive next mode n s)).1 ≠ .exhausted) :
    valueOf (drive next mode m s) = valueOf (drive next mode n s) := by
  obtain ⟨es, r, hr, hv⟩ := (exists_valueOf_drive_iff hm).1 ⟨m, rfl⟩
  obtain ⟨fs, q, hq, hu⟩ := (exists_valueOf_drive_iff hn).1 ⟨n, rfl⟩
  rw [← hv, ← hu, (hr.unique hq).2]

theorem SameRuns.settle {control control' : Control} {w w' : World}
    (h : SameRuns next mode ⟨control, [.settle []], w⟩ ⟨control', [.settle []], w'⟩)
    {q : Outcome Value × World} (hq : q.1 ≠ .exhausted) :
    (∃ fuel, settle next mode fuel control w = q) ↔
      ∃ fuel, settle next mode fuel control' w' = q := by
  rw [exists_settle_eq_iff hq, exists_settle_eq_iff hq]
  simp only [h.1]

end KLambda.Machine
