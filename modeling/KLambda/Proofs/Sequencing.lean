import KLambda.Console
import KLambda.Proofs.Driving
import KLambda.Proofs.Equivalent
import KLambda.Proofs.Evolution
import KLambda.Proofs.Lexing
import KLambda.Proofs.Reading
import KLambda.Proofs.Unbuffered
import Mathlib

/-!
Texts that follow each other. A blank between two texts keeps their tokens apart, so the forms of
the whole are those of the one and then those of the other.
-/
namespace KLambda

namespace Lexer

variable {p q : Position} {cs ds : List Char}

theorem tokens?_scan_failed {e : LexError} (h : next p cs = .failed e) :
    (Lexed.scan p cs).tokens? = none := by
  rw [Lexed.scan]
  split <;> simp_all [Lexed.tokens?]

theorem tokens?_scan_congr (h : next p cs = next q ds) :
    (Lexed.scan p cs).tokens? = (Lexed.scan q ds).tokens? := by
  cases hn : next q ds with
  | done => rw [tokens?_scan_done hn, tokens?_scan_done (h.trans hn)]
  | token => rw [tokens?_scan_token hn, tokens?_scan_token (h.trans hn)]
  | failed => rw [tokens?_scan_failed hn, tokens?_scan_failed (h.trans hn)]

theorem endsAtom_blanks (hne : cs ≠ []) (hb : ∀ c ∈ cs, Text.isBlank c = true) :
    EndsAtom (cs ++ ds) := by
  intro c rest he
  obtain ⟨b, bs, rfl⟩ := List.exists_cons_of_ne_nil hne
  obtain ⟨rfl, -⟩ := List.cons.inj he
  simp [inAtom, hb b (by simp)]

/-- The tokens of a text, blanks and another text. -/
theorem tokens?_append {source blanks : String} {ts : List Token}
    (h : (Lexed.ofSource source).tokens? = some ts) (hne : blanks.toList ≠ [])
    (hb : ∀ c ∈ blanks.toList, Text.isBlank c = true) (source' : String) :
    (Lexed.ofSource (source ++ blanks ++ source')).tokens? =
      (Lexed.ofSource source').tokens?.map (ts ++ ·) := by
  obtain ⟨ps, rest, hsplit, hg, rfl⟩ := (tokens?_scan_iff_split [] source.toList ts).1 h
  have hgap : Gap (rest ++ blanks.toList) := hg.append (.of_blanks hb)
  have htext : (source ++ blanks ++ source').toList =
      source.toList ++ (blanks.toList ++ source'.toList) := by simp
  have hstart : Position.start = .after [] := rfl
  rw [Lexed.ofSource, htext, tokens?_scan_split hsplit (endsAtom_blanks hne hb),
    ← List.append_assoc, tokens?_scan_congr (next_gap hgap _ _), hstart, Position.past_after,
    Position.past_after, tokens?_scan_after _ []]
  rfl

end Lexer

namespace Reader

/-- The forms at the beginning are read first, and the rest as if it stood alone. -/
theorem readAll_append (fs : List Form) {ls : List Lexeme}
    (h : ls.map Lexeme.token = Form.listTokens fs) (rest : List Lexeme) :
    readAll none (ls ++ rest) = (readAll none rest).map (fs ++ ·) := by
  induction fs generalizing ls with
  | nil =>
    obtain rfl : ls = [] := by simpa [Form.listTokens] using h
    rw [List.nil_append]
    cases readAll none rest <;> rfl
  | cons f fs ih =>
    obtain ⟨ms, ns, rfl, hm, hn⟩ := List.map_eq_append_iff.1 h
    have ht : take none [] (ms ++ (ns ++ rest)) = (.ok (some f), ns ++ rest) :=
      take_form f [] hm .start _
    have hi := ih hn
    rw [List.append_assoc, readAll]
    split <;> simp_all
    cases readAll none rest <;> rfl

end Reader

namespace Form

variable {source blanks : String} {fs : List Form}

theorem tokens?_of_all (h : all source = .ok fs) :
    (Lexed.ofSource source).tokens? = some (listTokens fs) := by
  cases ht : (Lexed.ofSource source).tokens? with
  | none =>
    obtain ⟨e, he⟩ := all_of_failure ht
    simp [he] at h
  | some ts =>
    obtain ⟨ha, rfl⟩ := all_of_tokens ht
    have hr := Reader.readAll_spec none (Lexed.ofSource source).lexemes
    rw [← ha, h] at hr
    rw [hr.1]

theorem all_of_listTokens (h : (Lexed.ofSource source).tokens? = some (listTokens fs)) :
    all source = .ok fs := by
  obtain ⟨ha, ht⟩ := all_of_tokens h
  rw [ha, Reader.readAll_listTokens fs ht]

/-- A text that can be read, followed by another, can be read exactly when the other can. -/
theorem all_append (h : all source = .ok fs) (hne : blanks.toList ≠ [])
    (hb : ∀ c ∈ blanks.toList, Text.isBlank c = true) (source' : String) :
    (∃ gs, all source' = .ok gs ∧ all (source ++ blanks ++ source') = .ok (fs ++ gs)) ∨
      ∃ e e', all source' = .error e ∧ all (source ++ blanks ++ source') = .error e' := by
  have hw := Lexer.tokens?_append (tokens?_of_all h) hne hb source'
  cases ht : (Lexed.ofSource source').tokens? with
  | none =>
    rw [ht] at hw
    obtain ⟨e, he⟩ := all_of_failure ht
    obtain ⟨e', he'⟩ := all_of_failure hw
    exact Or.inr ⟨e, e', he, he'⟩
  | some ts =>
    rw [ht] at hw
    obtain ⟨hall, hm⟩ := all_of_tokens hw
    obtain ⟨ls, rest, hl, hls, hrest⟩ := List.map_eq_append_iff.1 hm
    rw [hl, Reader.readAll_append fs hls] at hall
    cases hx : Reader.readAll none rest with
    | ok gs =>
      have hr := Reader.readAll_spec none rest
      rw [hx] at hr
      rw [hx] at hall
      exact Or.inl ⟨gs, all_of_listTokens (by rw [ht, ← hrest, hr.1]), hall⟩
    | error e' =>
      rw [hx] at hall
      cases ha : all source' with
      | error e => exact Or.inr ⟨e, e', rfl, hall⟩
      | ok gs =>
        have hg : ts = listTokens gs := Option.some.inj (ht.symm.trans (tokens?_of_all ha))
        rw [Reader.readAll_listTokens gs (hrest.trans hg)] at hx
        cases hx

end Form

namespace Machine

variable {host : Host} {mode : Mode} {w : World} {S : List Frame} {fs gs : List Form}
  {r : Outcome Step × World}

/-- Moves without effects that lead to the same state. -/
theorem sameRuns_meet {s t : State} (hs : result? mode s = none) (he : effect? s = none)
    (ht : result? mode t = none) (hf : effect? t = none)
    (h : Machine.move host s = Machine.move host t) : SameRuns host mode s t :=
  (sameRuns_move hs he h).trans (sameRuns_move ht hf rfl).symm

/-- The value of the last form is not looked at again. -/
theorem sameRuns_last (v x y : Value) : SameRuns host mode ⟨.give (.done v), .forms x fs :: S, w⟩
    ⟨.give (.done v), .forms y fs :: S, w⟩ := by
  cases fs <;> exact sameRuns_meet rfl rfl rfl rfl rfl

/-- Forms may be evaluated one part after the other. The induction is on the first part, and what
comes back to the frame after each form decides how it goes on. -/
theorem sameRuns_forms (v x y : Value) :
    SameRuns host mode ⟨.give (.done v), .forms x (fs ++ gs) :: S, w⟩
      ⟨.give (.done v), .forms x fs :: .forms y gs :: S, w⟩ := by
  induction fs generalizing v x w with
  | nil =>
    have hr : SameRuns host mode ⟨.give (.done v), .forms x [] :: .forms y gs :: S, w⟩
        ⟨.give (.done v), .forms y gs :: S, w⟩ := sameRuns_move rfl rfl rfl
    exact (sameRuns_last v x y).trans hr.symm
  | cons f fs ih =>
    let form := f.build w.heap
    have hl : SameRuns host mode ⟨.give (.done v), .forms x (f :: fs ++ gs) :: S, w⟩
        (evalForm (.forms v (fs ++ gs) :: S) { w with heap := form.2 } form.1) :=
      sameRuns_move rfl rfl rfl
    have hr : SameRuns host mode ⟨.give (.done v), .forms x (f :: fs) :: .forms y gs :: S, w⟩
        (evalForm (.forms v fs :: .forms y gs :: S) { w with heap := form.2 } form.1) :=
      sameRuns_move rfl rfl rfl
    refine hl.trans (.trans ?_ hr.symm)
    have above : ∀ s : State, SameRuns host mode (s.onto (.forms v (fs ++ gs) :: S))
        (s.onto (.forms v fs :: .forms y gs :: S)) := by
      refine sameRuns_onto trivial trivial fun s' hs => ?_
      cases hs with
      | done u w => exact ih u v
      | raise e w =>
        have hx : SameRuns host mode ⟨.raise e, .forms v (fs ++ gs) :: S, w⟩ ⟨.raise e, S, w⟩ :=
          sameRuns_move rfl rfl rfl
        have hy : SameRuns host mode ⟨.raise e, .forms v fs :: .forms y gs :: S, w⟩
            ⟨.raise e, .forms y gs :: S, w⟩ := sameRuns_move rfl rfl rfl
        have hz : SameRuns host mode ⟨.raise e, .forms y gs :: S, w⟩ ⟨.raise e, S, w⟩ :=
          sameRuns_move rfl rfl rfl
        exact hx.trans (hy.trans hz).symm
    have hs := above (evalForm [] { w with heap := form.2 } form.1)
    rwa [← evalForm_onto, ← evalForm_onto] at hs

/-- A frame that is left without forms is a frame that settles. -/
theorem sameRuns_settled (v x : Value) :
    SameRuns host mode ⟨.give (.done v), [.forms x fs], w⟩
      ⟨.give (.done v), [.forms x fs, .settle []], w⟩ := by
  have hs : SameRuns host mode ⟨.give (.done v), [.forms x (fs ++ [])], w⟩
      ⟨.give (.done v), [.forms x fs, .forms .empty []], w⟩ := sameRuns_forms v x .empty
  rw [List.append_nil] at hs
  refine hs.trans (sameRuns_onto (a := .forms .empty []) (b := .settle []) (S := []) (T := [])
    trivial trivial (fun s' hs => ?_) ⟨.give (.done v), [.forms x fs], w⟩)
  cases hs <;> exact sameRuns_meet rfl rfl rfl rfl rfl

/-- The value that the first form is evaluated after does not matter either. -/
theorem sameRuns_given (hg : gs ≠ []) (u v x : Value) :
    SameRuns host mode ⟨.give (.done u), [.forms x gs], w⟩ ⟨.give (.done v), [.forms x gs], w⟩ := by
  obtain ⟨g, gs, rfl⟩ := List.exists_cons_of_ne_nil hg
  let form := g.build w.heap
  have first : ∀ v, SameRuns host mode ⟨.give (.done v), [.forms x (g :: gs)], w⟩
      ((evalForm [] { w with heap := form.2 } form.1).onto [.forms v gs]) := by
    intro v
    rw [← evalForm_onto]
    exact sameRuns_move rfl rfl rfl
  refine (first u).trans (.trans ?_ (first v).symm)
  refine sameRuns_onto (a := .forms u gs) (b := .forms v gs) trivial trivial (fun s' hs => ?_) _
  cases hs with
  | done x w => exact sameRuns_last x u v
  | raise => exact sameRuns_meet rfl rfl rfl rfl rfl

/-- Forms end with a value or an error, and never with a call that is left to be made. -/
theorem ends_forms_done {v x : Value} {step : Step} {w' : World} {es : List Effect}
    (h : Ends host mode ⟨.give (.done v), [.forms x fs], w⟩ es (.ok step, w')) :
    ∃ u, step = .done u := by
  have hs := ((sameRuns_settled v x).1 es _).1 h
  rcases Ends.onto_cases (s := ⟨.give (.done v), [.forms x fs], w⟩) hs trivial fun _ _ => rfl with
    ⟨e, he, -⟩ | ⟨u, w₁, es₁, es₂, n, -, -, hr⟩
  · cases he
  · cases ((ends_settled u [] w₁).unique hr).2
    exact ⟨u, rfl⟩

theorem ends_forms_append (hg : gs ≠ []) (v x : Value) (es : List Effect) :
    Ends host mode ⟨.give (.done v), [.forms x (fs ++ gs)], w⟩ es r ↔
      (∃ e, r.1 = .error e) ∧ Ends host mode ⟨.give (.done v), [.forms x fs], w⟩ es r ∨
      ∃ u w' es₁ es₂, es = es₁ ++ es₂ ∧
        Ends host mode ⟨.give (.done v), [.forms x fs], w⟩ es₁ (.ok (.done u), w') ∧
        Ends host mode ⟨.give (.done v), [.forms x gs], w'⟩ es₂ r := by
  have hs := @ends_onto_iff host mode ⟨.give (.done v), [.forms x fs], w⟩ es (.forms x gs) r trivial
    fun _ _ => rfl
  have settled : ∀ es q,
      Ends host mode (State.onto ⟨.give (.done v), [.forms x fs], w⟩ [.settle []]) es q ↔
        Ends host mode ⟨.give (.done v), [.forms x fs], w⟩ es q :=
    fun es q => ((sameRuns_settled v x).1 es q).symm
  have given : ∀ u w' es, Ends host mode ⟨.give (.done u), [.forms x gs], w'⟩ es r ↔
      Ends host mode ⟨.give (.done v), [.forms x gs], w'⟩ es r :=
    fun u w' es => (sameRuns_given hg u v x).1 es r
  simp only [settled, given] at hs
  exact ((sameRuns_forms v x x).1 es r).trans hs

end Machine

namespace World

variable {host : Host} {mode : Mode} {w w' : World} {fs gs : List Form} {q : Outcome Value × World}

theorem exists_evalForms_eq_iff (hq : q.1 ≠ .exhausted) :
    (∃ fuel, w.evalForms host mode fuel fs = q) ↔
      ∃ es r, Machine.Ends host mode ⟨.give (.done .empty), [.forms .empty fs], w⟩ es r ∧
        Machine.valueOf r = q :=
  Machine.exists_valueOf_drive_iff hq

theorem evalForms_append (hg : gs ≠ []) (hq : q.1 ≠ .exhausted) :
    (∃ fuel, w.evalForms host mode fuel (fs ++ gs) = q) ↔
      (∃ e, q.1 = .error e) ∧ (∃ fuel, w.evalForms host mode fuel fs = q) ∨
      ∃ v w', (∃ fuel, w.evalForms host mode fuel fs = (.ok v, w')) ∧
        ∃ fuel, w'.evalForms host mode fuel gs = q := by
  have hok : ∀ (v : Value) (w' : World), ((.ok v, w') : Outcome Value × World).1 ≠ .exhausted :=
    fun v w' => by simp
  simp only [exists_evalForms_eq_iff hq, exists_evalForms_eq_iff (hok _ _),
    Machine.ends_forms_append hg]
  constructor
  · rintro ⟨es, r, ⟨⟨e, he⟩, h⟩ | ⟨v, w', es₁, es₂, rfl, h₁, h₂⟩, rfl⟩
    · obtain ⟨o, w'⟩ := r
      cases he
      exact Or.inl ⟨⟨e, rfl⟩, es, _, h, rfl⟩
    · exact Or.inr ⟨v, w', ⟨es₁, _, h₁, rfl⟩, es₂, r, h₂, rfl⟩
  · rintro (⟨⟨e, he⟩, es, ⟨o, w'⟩, h, rfl⟩ | ⟨v, w', ⟨es₁, ⟨o, w₁⟩, h₁, hv⟩, es₂, r, h₂, rfl⟩)
    · refine ⟨es, _, Or.inl ⟨?_, h⟩, rfl⟩
      cases o with
      | error e' => exact ⟨e', rfl⟩
      | ok step => cases step <;> cases he
      | exhausted => cases he
    · cases o with
      | ok step =>
        obtain ⟨u, rfl⟩ := Machine.ends_forms_done h₁
        cases hv
        exact ⟨es₁ ++ es₂, r, Or.inr ⟨_, _, es₁, es₂, rfl, h₁, h₂⟩, rfl⟩
      | error e => cases hv
      | exhausted => cases hv

theorem evalSource_of_ok {next : State → State} (hw : w.admits mode = .ok ()) {source : String}
    (h : Form.all source = .ok fs) (fuel : Nat) :
    w.evalSource next mode fuel source = w.evalForms next mode fuel fs := by
  simp only [evalSource, hw, h]

theorem evalSource_of_error {next : State → State} (hw : w.admits mode = .ok ()) {source : String}
    {e : ReadError} (h : Form.all source = .error e) (fuel : Nat) :
    w.evalSource next mode fuel source = (.error (.read e), w) := by
  simp only [evalSource, hw, h]

/-- Whether a world may be driven in a mode does not change when it is. -/
theorem admits_evalForms {fuel : Nat} (h : w.evalForms host mode fuel fs = q) :
    q.2.admits mode = w.admits mode := by
  subst h
  rw [evalForms, Machine.valueOf_snd]
  exact (Machine.drive_evolves host mode fuel _).admits mode

theorem evalForms_unbuffered (hh : host.Unbuffered) (hw : w.Unbuffered) (fuel : Nat) :
    (w.evalForms host mode fuel fs).2.Unbuffered := by
  rw [evalForms, Machine.valueOf_snd]
  exact Machine.drive_unbuffered hh hw fuel

/-- Evaluating these forms loses no bytes that a stream holds back. -/
def LosslessForms (w : World) (host : Host) (mode : Mode) (fs : List Form) : Prop :=
  Machine.Lossless host mode ⟨.give (.done .empty), [.forms .empty fs], w⟩

theorem LosslessForms.evalForms_eq (h : w.LosslessForms host mode fs) (fuel : Nat) :
    w.evalForms (Machine.shed host mode) mode fuel fs = w.evalForms host mode fuel fs :=
  congrArg Machine.valueOf (h.drive_eq fuel)

end World

open Machine in
/-- Evaluating a text that can be read, blanks and another text. If the other can be read too, and
no bytes are lost that a stream holds back, this comes to what the first comes to where that is an
error, and otherwise to what the other comes to in the world that the first has left; a text without
forms leaves the value as it is. If the other cannot be read, neither can the whole; and a text that
cannot be read changes nothing at all, wherever the fault is. -/
theorem evalSource_append (host : Host) {mode : Mode} {w : World} (hw : w.admits mode = .ok ())
    {source blanks : String} {fs : List Form} (hs : Form.all source = .ok fs)
    (hne : blanks.toList ≠ []) (hb : ∀ c ∈ blanks.toList, Text.isBlank c = true)
    (source' : String) :
    (∀ gs, Form.all source' = .ok gs → w.LosslessForms host mode (fs ++ gs) →
      w.LosslessForms host mode fs →
      (∀ v w', (∃ fuel, w.evalSource (shed host mode) mode fuel source = (.ok v, w')) →
        w'.LosslessForms host mode gs) →
      ∀ q : Outcome Value × World, q.1 ≠ .exhausted →
      ((∃ fuel, w.evalSource (shed host mode) mode fuel (source ++ blanks ++ source') = q) ↔
        (∃ e, q.1 = .error e) ∧ (∃ fuel, w.evalSource (shed host mode) mode fuel source = q) ∨
        ∃ v w', (∃ fuel, w.evalSource (shed host mode) mode fuel source = (.ok v, w')) ∧
          (gs = [] ∧ q = (.ok v, w') ∨
            gs ≠ [] ∧ ∃ fuel, w'.evalSource (shed host mode) mode fuel source' = q))) ∧
    (∀ e, Form.all source' = .error e → ∃ e', ∀ fuel,
      w.evalSource (shed host mode) mode fuel (source ++ blanks ++ source') =
        (.error (.read e'), w)) ∧
    ∀ text e, Form.all text = .error e → ∀ fuel,
      w.evalSource (shed host mode) mode fuel text = (.error (.read e), w) := by
  refine ⟨fun gs hgs hall hfirst hsecond q hq => ?_, fun e he => ?_,
    fun text e he => World.evalSource_of_error hw he⟩
  · obtain ⟨gs', hgs', hforms⟩ | ⟨e, -, he, -⟩ := Form.all_append hs hne hb source'
    · obtain rfl : gs = gs' := Except.ok.inj (hgs.symm.trans hgs')
      simp only [World.evalSource_of_ok hw hs, hfirst.evalForms_eq] at hsecond
      have second : ∀ v w', (∃ fuel, w.evalForms host mode fuel fs = (.ok v, w')) →
          ∀ fuel, w'.evalSource (shed host mode) mode fuel source' =
            w'.evalForms host mode fuel gs := by
        intro v w' hv fuel
        rw [← (hsecond v w' hv).evalForms_eq]
        obtain ⟨n, hn⟩ := hv
        exact World.evalSource_of_ok ((World.admits_evalForms hn).trans hw) hgs fuel
      simp only [World.evalSource_of_ok hw hs, World.evalSource_of_ok hw hforms,
        hfirst.evalForms_eq, hall.evalForms_eq]
      by_cases hg : gs = []
      · subst hg
        rw [List.append_nil]
        obtain ⟨o, w'⟩ := q
        cases o with
        | ok v => simp
        | error e => simp
        | exhausted => exact absurd rfl hq
      · rw [World.evalForms_append hg hq]
        refine or_congr Iff.rfl (exists_congr fun v => exists_congr fun w' => and_congr_right ?_)
        intro hv
        simp [second v w' hv, hg]
    · rw [hgs] at he
      cases he
  · obtain ⟨gs, hgs, -⟩ | ⟨-, e', -, he'⟩ := Form.all_append hs hne hb source'
    · rw [he] at hgs
      cases hgs
    · exact ⟨e', World.evalSource_of_error hw he'⟩

/-- The second text reads what the first has assigned: `(set x y)` and then `(value x)`. -/
theorem evalSource_append_assigned :
    ∃ w w' : World, w.admits .sync = .ok () ∧ w.Unbuffered ∧ ∃ fuel,
      w.evalSource (Machine.shed .echo .sync) .sync fuel "(set x y)\n (value x)" =
        (.ok (.symbol "y"), w') := by
  let w : World := ⟨.empty, .empty, .empty, .empty, {}, 0, #[], 0, 0⟩
  have hs : Form.all "(set x y)" = .ok [.list [.symbol "set", .symbol "x", .symbol "y"]] := by
    cbv
  have hs' : Form.all "(value x)" = .ok [.list [.symbol "value", .symbol "x"]] := by
    cbv
  have hne : "\n ".toList ≠ [] := by decide
  have hb : ∀ c ∈ "\n ".toList, Text.isBlank c = true := by simp [Text.isBlank]
  have hw : w.admits .sync = .ok () := rfl
  have hu : w.Unbuffered := ⟨fun s hs => by simp [w, Heap.empty] at hs, by simp [w]⟩
  have lossless : ∀ {u : World} {fs : List Form}, u.Unbuffered → u.LosslessForms .echo .sync fs :=
    fun hu => Machine.lossless_of_unbuffered Host.unbuffered_echo hu .sync
  have hl : ∀ {fs : List Form}, w.LosslessForms .echo .sync fs := lossless hu
  have ha := evalSource_append .echo hw hs hne hb "(value x)"
  let w₁ : World := { w with
    heap.marks := 3, values := ⟨[("x", .symbol "y")]⟩, reports := #[.compiling "[set x y]"] }
  let w₂ : World := { w₁ with
    heap.marks := 5, reports := #[.compiling "[set x y]", .compiling "[value x]"] }
  have h₁ : w.evalForms Host.echo .sync 10 [.list [.symbol "set", .symbol "x", .symbol "y"]] =
      (.ok (.symbol "y"), w₁) := by
    cbv
  have h₂ : w₁.evalForms Host.echo .sync 10 [.list [.symbol "value", .symbol "x"]] =
      (.ok (.symbol "y"), w₂) := by
    cbv
  have hw₁ : w₁.admits .sync = .ok () := World.admits_evalForms h₁
  have hl₁ : ∀ {fs : List Form}, w₁.LosslessForms .echo .sync fs := lossless ⟨hu.1, hu.2⟩
  have first : ∃ fuel, w.evalSource (Machine.shed .echo .sync) .sync fuel "(set x y)" =
      (.ok (.symbol "y"), w₁) :=
    ⟨10, by rw [World.evalSource_of_ok rfl hs, hl.evalForms_eq, h₁]⟩
  have second : ∃ fuel, w₁.evalSource (Machine.shed .echo .sync) .sync fuel "(value x)" =
      (.ok (.symbol "y"), w₂) :=
    ⟨10, by rw [World.evalSource_of_ok hw₁ hs', hl₁.evalForms_eq, h₂]⟩
  refine ⟨w, w₂, rfl, hu, (ha.1 _ hs' hl hl ?_ (.ok (.symbol "y"), w₂) (by simp)).2 (Or.inr ?_)⟩
  · rintro v w' ⟨fuel, hv⟩
    rw [World.evalSource_of_ok rfl hs, hl.evalForms_eq] at hv
    have hd : (w.evalForms Host.echo .sync fuel
        [.list [.symbol "set", .symbol "x", .symbol "y"]]).2.Unbuffered :=
      World.evalForms_unbuffered Host.unbuffered_echo hu fuel
    rw [hv] at hd
    exact lossless hd
  · exact ⟨.symbol "y", w₁, first, Or.inr ⟨by simp, second⟩⟩

/-- A value is let go of when its text has been evaluated, but only after the next form has when
there is one. -/
theorem not_evalSource_append :
    ¬ ∀ (w : World) (source blanks source' : String) (fs gs : List Form),
      w.admits .sync = .ok () → Form.all source = .ok fs → blanks.toList ≠ [] →
      (∀ c ∈ blanks.toList, Text.isBlank c = true) → Form.all source' = .ok gs → gs ≠ [] →
      ∀ (v : Value) (w' : World) (q : Outcome Value × World), q.1 ≠ .exhausted →
        (∃ fuel, w.evalSource (Console.next .sync) .sync fuel source = (.ok v, w')) →
        ((∃ fuel, w.evalSource (Console.next .sync) .sync fuel (source ++ blanks ++ source') = q) ↔
          ∃ fuel, w'.evalSource (Console.next .sync) .sync fuel source' = q) := by
  intro h
  let fs : List Form := [.list [.symbol "let", .symbol "X", .list [.symbol "value", .symbol "s"],
    .list [.symbol "do", .list [.symbol "set", .symbol "s", .symbol "y"], .symbol "X"]]]
  let gs : List Form := [.list [.symbol "read-byte", .list [.symbol "value", .symbol "r"]]]
  have hs : Form.all "(let X (value s) (do (set s y) X))" = .ok fs := by cbv
  have hs' : Form.all "(read-byte (value r))" = .ok gs := by cbv
  have hall : Form.all ("(let X (value s) (do (set s y) X))" ++ " " ++ "(read-byte (value r))") =
      .ok (fs ++ gs) := by cbv
  have hb : ∀ c ∈ " ".toList, Text.isBlank c = true := by simp [Text.isBlank]
  let w : World := .withheld [("s", .writer), ("r", .reader)]
  let first := w.evalForms (Console.next .sync) .sync 40 fs
  have whole : (w.evalForms (Console.next .sync) .sync 40 (fs ++ gs)).1.atEnd? = some true := by
    decide +kernel
  have second : (first.2.evalForms (Console.next .sync) .sync 40 gs).1.atEnd? = some false := by
    decide +kernel
  have admits : first.2.admits .sync = .ok () :=
    World.admits_of_not_suspend _ (by decide +kernel) .sync
  obtain ⟨v, hv⟩ : ∃ v, first = (.ok v, first.2) := by
    have hv : first.1.value?.isSome = true := by decide +kernel
    obtain ⟨v, hv⟩ := Option.isSome_iff_exists.1 hv
    exact ⟨v, Outcome.eq_of_value? hv⟩
  have hq := h w _ " " _ fs gs rfl hs (by decide) hb hs' (by simp [gs]) v first.2 _
    (Outcome.ne_exhausted_of_atEnd? whole) ⟨40, by rw [World.evalSource_of_ok rfl hs, ← hv]⟩
  obtain ⟨fuel, hf⟩ := hq.1 ⟨40, by rw [World.evalSource_of_ok rfl hall]⟩
  rw [World.evalSource_of_ok admits hs'] at hf
  rw [← hf] at whole
  cases Machine.atEnd?_unique whole second

end KLambda
