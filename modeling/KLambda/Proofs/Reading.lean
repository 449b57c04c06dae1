import KLambda.Form.Reader
import KLambda.Heap

/-!
Reading and writing forms. Every form is written with tokens of its own, so a text can be read as
some forms exactly when its tokens are the ones they are written with. A text of any other tokens
has a parenthesis that closes nothing, which is reported if there is one, or one that is never
closed.
-/
namespace KLambda

mutual

/-- The tokens that a form is written with. -/
def Form.tokens : Form → List Token
  | .number n => [.number n]
  | .str s => [.str s]
  | .symbol s => [.symbol s]
  | .list items => .opening :: (Form.listTokens items ++ [.closing])

def Form.listTokens : List Form → List Token
  | [] => []
  | f :: fs => f.tokens ++ Form.listTokens fs

end

theorem Form.listTokens_append (fs gs : List Form) :
    Form.listTokens (fs ++ gs) = Form.listTokens fs ++ Form.listTokens gs := by
  induction fs with
  | nil => rfl
  | cons f fs ih => simp only [List.cons_append, Form.listTokens, ih, List.append_assoc]

/-- The form that a value is, if it is built of numbers, strings, symbols and proper lists only. -/
def Value.form? : Value → Option Form
  | .number n => some (.number n)
  | .str s => some (.str s)
  | .symbol s => some (.symbol s)
  | .empty => some (.list [])
  | .cons _ h t =>
    match h.form?, t.form? with
    | some f, some (.list fs) => some (.list (f :: fs))
    | _, _ => none
  | _ => none

mutual

/-- The value that a form builds is that form again. -/
theorem Form.form?_build (f : Form) (h : Heap) : (f.build h).1.form? = some f := by
  cases f with
  | number | str | symbol => rfl
  | list items => exact Form.form?_buildList items h

theorem Form.form?_buildList (fs : List Form) (h : Heap) :
    (Form.buildList fs h).1.form? = some (.list fs) := by
  cases fs with
  | nil => rfl
  | cons f fs =>
    simp only [Form.buildList, Heap.cons, Value.form?, Form.form?_build f h,
      Form.form?_buildList fs _]

end

namespace Token

def isOpening : Token → Bool
  | .opening => true
  | _ => false

def isClosing : Token → Bool
  | .closing => true
  | _ => false

/-- Some part that the tokens start with has more closing parentheses than it has opening ones and
than lists were open before. -/
def Excess (depth : Nat) (ts : List Token) : Prop :=
  ∃ pre, pre <+: ts ∧ depth + pre.countP isOpening < pre.countP isClosing

variable {depth depth' : Nat} {t : Token} {ts : List Token}

theorem not_excess_nil (depth : Nat) : ¬ Excess depth [] := by
  rintro ⟨pre, hp, hc⟩
  simp [List.prefix_nil.1 hp] at hc

theorem excess_cons (h : ∀ pre : List Token,
    depth + (t :: pre).countP isOpening < (t :: pre).countP isClosing ↔
      depth' + pre.countP isOpening < pre.countP isClosing) :
    Excess depth (t :: ts) ↔ Excess depth' ts := by
  constructor
  · rintro ⟨pre, hp, hc⟩
    cases pre with
    | nil => simp at hc
    | cons u pre =>
      obtain ⟨rfl, ht⟩ := List.cons_prefix_cons.1 hp
      exact ⟨pre, ht, (h pre).1 hc⟩
  · rintro ⟨pre, hp, hc⟩
    exact ⟨t :: pre, List.cons_prefix_cons.2 ⟨rfl, hp⟩, (h pre).2 hc⟩

theorem excess_opening : Excess depth (.opening :: ts) ↔ Excess (depth + 1) ts := by
  apply excess_cons
  intro pre
  simp [List.countP_cons, isOpening, isClosing]
  omega

theorem excess_closing_succ : Excess (depth + 1) (.closing :: ts) ↔ Excess depth ts := by
  apply excess_cons
  intro pre
  simp [List.countP_cons, isOpening, isClosing]
  omega

theorem excess_closing_zero : Excess 0 (.closing :: ts) :=
  ⟨[.closing], by simp, by decide⟩

theorem excess_atom (ho : t.isOpening = false) (hc : t.isClosing = false) :
    Excess depth (t :: ts) ↔ Excess depth ts := by
  apply excess_cons
  intro pre
  simp [ho, hc]

end Token

namespace Reader

variable {stack : List OpenList} {f : Form}

/-- The tokens that led to these open lists. -/
def written : List OpenList → List Token
  | [] => []
  | o :: stack => written stack ++ .opening :: Form.listTokens o.items.reverse

theorem written_push (o : OpenList) (f : Form) (stack : List OpenList) :
    written (o.push f :: stack) = written (o :: stack) ++ f.tokens := by
  simp [written, OpenList.push, Form.listTokens_append, Form.listTokens]

/-- What is known of the place that a token leads to, in terms of what was written before it and of
the parentheses that follow. -/
def Shift.Follows (t : Token) (stack : List OpenList) : Shift → Prop
  | .complete f => written stack ++ [t] = f.tokens ∧
      ∀ ts, Token.Excess stack.length (t :: ts) ↔ Token.Excess 0 ts
  | .within stack' => written stack' = written stack ++ [t] ∧
      ∀ ts, Token.Excess stack.length (t :: ts) ↔ Token.Excess stack'.length ts
  | .stray => ∀ ts, Token.Excess stack.length (t :: ts)

/-- A token that is a form of its own. -/
theorem follows_atom {t : Token} (hf : f.tokens = [t]) (ho : t.isOpening = false)
    (hc : t.isClosing = false) (stack : List OpenList) : (put f stack).Follows t stack := by
  cases stack with
  | nil => exact ⟨hf.symm, fun ts => Token.excess_atom ho hc⟩
  | cons o stack =>
    refine ⟨?_, fun ts => Token.excess_atom ho hc⟩
    rw [written_push, hf]

/-- The parenthesis that closes a list. -/
theorem follows_closing (o : OpenList) (stack : List OpenList) :
    (put o.close stack).Follows .closing (o :: stack) := by
  have hw : written (o :: stack) ++ [.closing] = written stack ++ o.close.tokens := by
    simp [written, OpenList.close, Form.tokens]
  cases stack with
  | nil => exact ⟨hw, fun ts => Token.excess_closing_succ⟩
  | cons p stack =>
    refine ⟨?_, fun ts => Token.excess_closing_succ⟩
    rw [written_push, hw]

theorem shift_follows (l : Lexeme) (stack : List OpenList) :
    (shift l stack).Follows l.token stack := by
  obtain ⟨t, before, after⟩ := l
  cases t with
  | opening => exact ⟨rfl, fun ts => Token.excess_opening⟩
  | closing =>
    cases stack with
    | nil => exact fun ts => Token.excess_closing_zero
    | cons o stack => exact follows_closing o stack
  | number n => exact follows_atom (f := .number n) rfl rfl rfl stack
  | str s => exact follows_atom (f := .str s) rfl rfl rfl stack
  | symbol s => exact follows_atom (f := .symbol s) rfl rfl rfl stack

/-- The fault is a parenthesis that closes nothing if there is one, and one that is not closed
otherwise. -/
def Blames (depth : Nat) (ts : List Token) (fault : ReadFault) : Prop :=
  fault = .unexpectedClose ∧ Token.Excess depth ts ∨ fault = .unclosed ∧ ¬ Token.Excess depth ts

/-- What is known of the next form, or of the fault that there is in its place. -/
def Taken (failure : Option LexError) (stack : List OpenList) (ls : List Lexeme) :
    Except ReadError (Option Form) × List Lexeme → Prop
  | (.ok (some f), rest) =>
      written stack ++ ls.map Lexeme.token = f.tokens ++ rest.map Lexeme.token ∧
      (Token.Excess stack.length (ls.map Lexeme.token) ↔
        Token.Excess 0 (rest.map Lexeme.token)) ∧
      (failure ≠ none → rest ≠ [])
  | (.ok none, _) => stack = [] ∧ ls = []
  | (.error e, _) => failure = none → Blames stack.length (ls.map Lexeme.token) e.fault

theorem take_taken (failure : Option LexError) (stack : List OpenList) (ls : List Lexeme) :
    Taken failure stack ls (take failure stack ls) := by
  fun_induction take failure stack ls with
  | case1 => exact ⟨rfl, rfl⟩
  | case2 o stack => exact fun _ => Or.inr ⟨rfl, Token.not_excess_nil _⟩
  | case3 stack l e he => exact fun hn => absurd (he.symm.trans hn) (by simp)
  | case4 stack l ls f hs hr =>
    have hf := shift_follows l stack
    rw [hs] at hf
    refine ⟨?_, hf.2 _, ?_⟩
    · rw [← hf.1]
      simp
    · intro hn hl
      obtain ⟨e, he⟩ := Option.ne_none_iff_exists'.1 hn
      exact hr e hl he
  | case5 stack l ls stack' hs hr ih =>
    have hf := shift_follows l stack
    rw [hs] at hf
    revert ih
    rcases take failure stack' ls with ⟨_ | _ | f, rest⟩
    · intro ih hn
      rcases ih hn with ⟨hx, he⟩ | ⟨hx, he⟩
      · exact Or.inl ⟨hx, (hf.2 _).2 he⟩
      · exact Or.inr ⟨hx, fun h => he ((hf.2 _).1 h)⟩
    · rintro ⟨rfl, -⟩
      simpa [written] using hf.1
    · rintro ⟨hw, he, hl⟩
      refine ⟨?_, (hf.2 _).trans he, hl⟩
      rw [← hw, hf.1]
      simp
  | case6 stack l ls hs hr =>
    have hf := shift_follows l stack
    rw [hs] at hf
    exact fun _ => Or.inl ⟨rfl, hf _⟩

/-- What is known of all the forms, or of the first fault. -/
def ReadAll (failure : Option LexError) (ls : List Lexeme) : Except ReadError (List Form) → Prop
  | .ok fs => ls.map Lexeme.token = Form.listTokens fs ∧ (failure ≠ none → ls = [])
  | .error e => failure = none → Blames 0 (ls.map Lexeme.token) e.fault

theorem readAll_spec (failure : Option LexError) (ls : List Lexeme) :
    ReadAll failure ls (readAll failure ls) := by
  fun_induction readAll failure ls with
  | case1 ls e rest h =>
    have ht := take_taken failure [] ls
    rwa [h] at ht
  | case2 ls rest h =>
    have ht := take_taken failure [] ls
    rw [h] at ht
    obtain ⟨-, rfl⟩ := ht
    exact ⟨rfl, fun _ => rfl⟩
  | case3 ls f rest h e hr ih =>
    have ht := take_taken failure [] ls
    rw [h] at ht
    rw [hr] at ih
    intro hn
    rcases ih hn with ⟨hx, he⟩ | ⟨hx, he⟩
    · exact Or.inl ⟨hx, ht.2.1.2 he⟩
    · exact Or.inr ⟨hx, fun h => he (ht.2.1.1 h)⟩
  | case4 ls f rest h fs hr ih =>
    have ht := take_taken failure [] ls
    rw [h] at ht
    rw [hr] at ih
    refine ⟨?_, fun hn => absurd (ih.2 hn) (ht.2.2 hn)⟩
    rw [Form.listTokens, ← ih.1]
    exact ht.1

/-- Where reading goes after a token that ends at a place, when no lexical fault is to come. -/
def proceed (place : Position) (rest : List Lexeme) :
    Shift → Except ReadError (Option Form) × List Lexeme
  | .complete f => (.ok (some f), rest)
  | .within stack => take none stack rest
  | .stray => (.error ⟨.unexpectedClose, place⟩, rest)

theorem take_cons (stack : List OpenList) (l : Lexeme) (rest : List Lexeme) :
    take none stack (l :: rest) = proceed l.after rest (shift l stack) := by
  rw [take]
  · split <;> simp_all [proceed]
  · simp

/-- The place does not matter where a form is put. -/
theorem proceed_put (p q : Position) (rest : List Lexeme) (f : Form) (stack : List OpenList) :
    proceed p rest (put f stack) = proceed q rest (put f stack) := by
  cases stack <;> rfl

theorem take_atom {l : Lexeme} (h : shift l stack = put f stack) (p : Position)
    (rest : List Lexeme) : take none stack (l :: rest) = proceed p rest (put f stack) := by
  rw [take_cons, h, proceed_put]

mutual

/-- The tokens of a form are taken for that form. -/
theorem take_form (f : Form) (stack : List OpenList) {ls : List Lexeme}
    (h : ls.map Lexeme.token = f.tokens) (p : Position) (rest : List Lexeme) :
    take none stack (ls ++ rest) = proceed p rest (put f stack) := by
  cases f with
  | number | str | symbol =>
    obtain ⟨l, rfl, hl⟩ := List.map_eq_singleton_iff.1 h
    exact take_atom (by simp [shift, hl]) p rest
  | list items =>
    obtain ⟨l, ls, rfl, hl, hr⟩ := List.map_eq_cons_iff.1 h
    obtain ⟨ms, ns, rfl, hm, hs⟩ := List.map_eq_append_iff.1 hr
    obtain ⟨n, rfl, hn⟩ := List.map_eq_singleton_iff.1 hs
    have hopen : shift l stack = .within (⟨l.before, []⟩ :: stack) := by simp [shift, hl]
    have hclose : shift n (⟨l.before, items.reverse⟩ :: stack) = put (.list items) stack := by
      simp [shift, hn, OpenList.close]
    calc take none stack (l :: (ms ++ [n]) ++ rest)
        = take none (⟨l.before, []⟩ :: stack) (ms ++ n :: rest) := by
          rw [List.cons_append, take_cons, hopen, proceed, List.append_assoc]
          rfl
      _ = take none (⟨l.before, items.reverse⟩ :: stack) (n :: rest) := by
          rw [take_forms items _ stack hm, List.append_nil]
      _ = proceed p rest (put (.list items) stack) := by
          rw [take_cons, hclose, proceed_put]

theorem take_forms (fs : List Form) (o : OpenList) (stack : List OpenList) {ls : List Lexeme}
    (h : ls.map Lexeme.token = Form.listTokens fs) (rest : List Lexeme) :
    take none (o :: stack) (ls ++ rest) =
      take none (⟨o.place, fs.reverse ++ o.items⟩ :: stack) rest := by
  cases fs with
  | nil =>
    obtain rfl : ls = [] := by simpa [Form.listTokens] using h
    rfl
  | cons f fs =>
    obtain ⟨ms, ns, rfl, hm, hn⟩ := List.map_eq_append_iff.1 h
    rw [List.append_assoc, take_form f (o :: stack) hm .start, put, proceed,
      take_forms fs (o.push f) stack hn]
    simp [OpenList.push]

end

theorem readAll_listTokens (fs : List Form) {ls : List Lexeme}
    (h : ls.map Lexeme.token = Form.listTokens fs) : readAll none ls = .ok fs := by
  induction fs generalizing ls with
  | nil =>
    obtain rfl : ls = [] := by simpa [Form.listTokens] using h
    simp [readAll, take]
  | cons f fs ih =>
    obtain ⟨ms, ns, rfl, hm, hn⟩ := List.map_eq_append_iff.1 h
    have ht : take none [] (ms ++ ns) = (.ok (some f), ns) := take_form f [] hm .start ns
    rw [readAll]
    split <;> simp_all

end Reader

namespace Form

theorem all_of_tokens {source : String} {ts : List Token}
    (h : (Lexed.ofSource source).tokens? = some ts) :
    all source = Reader.readAll none (Lexed.ofSource source).lexemes ∧
      (Lexed.ofSource source).lexemes.map Lexeme.token = ts := by
  unfold Lexed.tokens? at h
  split at h
  · rename_i hf
    refine ⟨?_, Option.some.inj h⟩
    simp only [all, Reader.ofSource, hf]
    cases (Lexed.ofSource source).lexemes <;> rfl
  · cases h

theorem all_of_failure {source : String} (h : (Lexed.ofSource source).tokens? = none) :
    ∃ e, all source = .error e := by
  unfold Lexed.tokens? at h
  split at h
  · cases h
  · rename_i e hf
    cases hl : (Lexed.ofSource source).lexemes with
    | nil => exact ⟨e.toReadError, by simp only [all, Reader.ofSource, hf, hl]⟩
    | cons l ls =>
      have hr := Reader.readAll_spec (some e) (l :: ls)
      simp only [all, Reader.ofSource, hf, hl]
      cases hx : Reader.readAll (some e) (l :: ls) with
      | error e' => exact ⟨e', rfl⟩
      | ok fs =>
        rw [hx] at hr
        exact absurd (hr.2 (by simp)) (by simp)

end Form

/-- A text is read as these forms exactly when it has no lexical fault and its tokens are those that
the forms are written with; the values that the forms build are the forms again. If its tokens are
those of no forms, the fault is a parenthesis that closes nothing, if some part that the tokens
start with has more closing than opening ones, and one that is not closed otherwise. A text with a
lexical fault is not read at all. -/
theorem reads_iff_tokens (source : String) :
    (∀ fs, Form.all source = .ok fs ↔
      (Lexed.ofSource source).tokens? = some (Form.listTokens fs)) ∧
    (∀ (f : Form) (h : Heap), (f.build h).1.form? = some f) ∧
    (∀ ts, (Lexed.ofSource source).tokens? = some ts → (∀ fs, ts ≠ Form.listTokens fs) →
      ∃ e, Form.all source = .error e ∧
        ((∃ pre, pre <+: ts ∧ pre.countP Token.isOpening < pre.countP Token.isClosing) →
          e.fault.text = "unexpected ')'") ∧
        ((¬ ∃ pre, pre <+: ts ∧ pre.countP Token.isOpening < pre.countP Token.isClosing) →
          e.fault.text = "unclosed '('")) ∧
    ((Lexed.ofSource source).tokens? = none → ∃ e, Form.all source = .error e) := by
  have reads : ∀ fs, Form.all source = .ok fs ↔
      (Lexed.ofSource source).tokens? = some (Form.listTokens fs) := by
    intro fs
    cases ht : (Lexed.ofSource source).tokens? with
    | none =>
      obtain ⟨e, he⟩ := Form.all_of_failure ht
      simp [he]
    | some ts =>
      obtain ⟨ha, rfl⟩ := Form.all_of_tokens ht
      rw [ha, Option.some.injEq]
      refine ⟨fun h => ?_, Reader.readAll_listTokens fs⟩
      have hr := Reader.readAll_spec none (Lexed.ofSource source).lexemes
      rw [h] at hr
      exact hr.1
  refine ⟨reads, Form.form?_build, ?_, Form.all_of_failure⟩
  intro ts ht hn
  cases hx : Form.all source with
  | ok fs => exact absurd (Option.some.inj (ht.symm.trans ((reads fs).1 hx))) (hn fs)
  | error e =>
    obtain ⟨ha, rfl⟩ := Form.all_of_tokens ht
    have hr := Reader.readAll_spec none (Lexed.ofSource source).lexemes
    rw [← ha, hx] at hr
    refine ⟨e, rfl, ?_⟩
    have hb := hr rfl
    simp only [Reader.Blames, Token.Excess, Nat.zero_add] at hb
    rcases hb with ⟨hf, he⟩ | ⟨hf, he⟩
    · exact ⟨fun _ => by rw [hf]; rfl, fun h => absurd he h⟩
    · exact ⟨fun h => absurd h he, fun _ => by rw [hf]; rfl⟩

end KLambda
