import Mathlib
import KLambda.Proofs.Lexing
import KLambda.Proofs.Reading

/-!
Where the reader reports a parenthesis without a match. The reader blames the right parenthesis: one
that closes nothing is the first of its kind, and one that is not closed is the innermost of those
that are open where the text ends. What it reports is not the place of that parenthesis, though. For
an opening one it is the place where the token before it ends, so whatever gap lies between is not
counted, and for a closing one it is the place just after it.
-/
namespace KLambda

namespace Token

/-- The tokens close as many lists as were open before, each list that they open themselves, and
nothing else. -/
structure Closes (depth : Nat) (ts : List Token) : Prop where
  not_excess : ¬ Excess depth ts
  count : depth + ts.countP isOpening = ts.countP isClosing

variable {depth : Nat} {t : Token} {ts : List Token}

theorem closes_nil : Closes 0 [] := ⟨not_excess_nil 0, rfl⟩

theorem Closes.opening (h : Closes (depth + 1) ts) : Closes depth (.opening :: ts) := by
  refine ⟨fun he => h.not_excess (excess_opening.1 he), ?_⟩
  have hc := h.count
  simp only [List.countP_cons, isOpening, isClosing]
  simp
  omega

theorem Closes.closing (h : Closes depth ts) : Closes (depth + 1) (.closing :: ts) := by
  refine ⟨fun he => h.not_excess (excess_closing_succ.1 he), ?_⟩
  have hc := h.count
  simp only [List.countP_cons, isOpening, isClosing]
  simp
  omega

theorem Closes.atom (h : Closes depth ts) (ho : t.isOpening = false) (hc : t.isClosing = false) :
    Closes depth (t :: ts) := by
  refine ⟨fun he => h.not_excess ((excess_atom ho hc).1 he), ?_⟩
  simpa [ho, hc] using h.count

end Token

namespace Reader

variable {failure : Option LexError} {opened : List Position} {stack stack' : List OpenList}
  {l : Lexeme} {ls rest : List Lexeme} {e : ReadError} {f : Form}

def places (stack : List OpenList) : List Position := stack.map OpenList.place

/-- The parenthesis that a fault is about, among those of the lists that are open already, given by
the places they are reported at, and those of the tokens to come. A fault of another kind is about
none. -/
inductive Faults : List Position → List Lexeme → ReadError → Prop
  | lexical {opened : List Position} {ls : List Lexeme} {fault : LexFault} {p : Position} :
      Faults opened ls ⟨.lexical fault, p⟩
  | stray {opened : List Position} (pre : List Lexeme) {post : List Lexeme} {l : Lexeme}
      (hl : l.token = .closing) (hc : Token.Closes opened.length (pre.map Lexeme.token)) :
      Faults opened (pre ++ l :: post) ⟨.unexpectedClose, l.after⟩
  | opened {opened : List Position} (pre : List Lexeme) {post : List Lexeme} {l : Lexeme}
      (hl : l.token = .opening) (hc : Token.Closes 0 (post.map Lexeme.token)) :
      Faults opened (pre ++ l :: post) ⟨.unclosed, l.before⟩
  | left (above : List Position) {below : List Position} {p : Position} {ls : List Lexeme}
      (hc : Token.Closes above.length (ls.map Lexeme.token)) :
      Faults (above ++ p :: below) ls ⟨.unclosed, p⟩

/-- An opening parenthesis before the tokens to come. -/
theorem Faults.opening (hl : l.token = .opening) (h : Faults (l.before :: opened) ls e) :
    Faults opened (l :: ls) e := by
  generalize hp : l.before :: opened = places at h
  cases h with
  | lexical => exact .lexical
  | @stray _ pre post m hm hc =>
    subst hp
    exact .stray (l :: pre) hm (by simpa [hl] using hc.opening)
  | @opened _ pre post m hm hc => exact .opened (l :: pre) hm hc
  | @left above below p _ hc =>
    cases above with
    | nil =>
      obtain ⟨rfl, rfl⟩ := List.cons.inj hp
      exact .opened [] hl hc
    | cons q above =>
      obtain ⟨rfl, rfl⟩ := List.cons.inj hp
      exact .left above (by simpa [hl] using hc.opening)

/-- A closing parenthesis before the tokens to come. -/
theorem Faults.closing (hl : l.token = .closing) (h : Faults opened ls e) (p : Position) :
    Faults (p :: opened) (l :: ls) e := by
  cases h with
  | lexical => exact .lexical
  | @stray _ pre post m hm hc => exact .stray (l :: pre) hm (by simpa [hl] using hc.closing)
  | @opened _ pre post m hm hc => exact .opened (l :: pre) hm hc
  | @left above below q _ hc => exact .left (p :: above) (by simpa [hl] using hc.closing)

/-- A token that is a form of its own before the tokens to come. -/
theorem Faults.atom (ho : l.token.isOpening = false) (hc : l.token.isClosing = false)
    (h : Faults opened ls e) : Faults opened (l :: ls) e := by
  cases h with
  | lexical => exact .lexical
  | @stray _ pre post m hm hs => exact .stray (l :: pre) hm (hs.atom ho hc)
  | @opened _ pre post m hm hs => exact .opened (l :: pre) hm hs
  | left above hs => exact .left above (hs.atom ho hc)

/-- The lists that are open after a token. -/
def Shift.stack? : Shift → Option (List OpenList)
  | .complete _ => some []
  | .within stack => some stack
  | .stray => none

/-- A form that is put into a list leaves the places of the open lists as they are. -/
theorem places_put (h : (put f stack).stack? = some stack') : places stack' = places stack := by
  cases stack with
  | nil =>
    cases h
    rfl
  | cons o stack =>
    cases h
    rfl

/-- A fault that is met after a token is the same one before it. -/
theorem Faults.of_shift (hs : (shift l stack).stack? = some stack')
    (h : Faults (places stack') ls e) : Faults (places stack) (l :: ls) e := by
  cases ht : l.token with
  | opening =>
    simp only [shift, ht, Shift.stack?, Option.some.injEq] at hs
    subst hs
    exact h.opening ht
  | closing =>
    cases stack with
    | nil => simp [shift, ht, Shift.stack?] at hs
    | cons o stack =>
      simp only [shift, ht] at hs
      rw [places_put hs] at h
      exact h.closing ht o.place
  | number | str | symbol =>
    simp only [shift, ht] at hs
    rw [places_put hs] at h
    exact h.atom (by simp [ht, Token.isOpening]) (by simp [ht, Token.isClosing])

theorem put_ne_stray (f : Form) (stack : List OpenList) : put f stack ≠ .stray := by
  cases stack <;> simp [put]

theorem closing_of_stray (h : shift l stack = .stray) : l.token = .closing ∧ stack = [] := by
  unfold shift at h
  split at h
  · cases h
  · exact ⟨‹_›, rfl⟩
  all_goals exact absurd h (put_ne_stray _ _)

/-- What is blamed when no form can be taken. -/
theorem take_faults (h : take failure stack ls = (.error e, rest)) :
    Faults (places stack) ls e := by
  fun_induction take failure stack ls with
  | case1 => simp at h
  | case2 o stack =>
    obtain ⟨rfl, -⟩ : ⟨.unclosed, o.place⟩ = e ∧ [] = rest := by simpa using h
    exact .left [] Token.closes_nil
  | case3 stack l fault hf =>
    obtain ⟨rfl, -⟩ : fault.toReadError = e ∧ [] = rest := by simpa using h
    exact .lexical
  | case4 => simp at h
  | case5 stack l ls stack' hs hr ih => exact .of_shift (by rw [hs]; rfl) (ih h)
  | case6 stack l ls hs hr =>
    obtain ⟨rfl, -⟩ : ⟨.unexpectedClose, l.after⟩ = e ∧ ls = rest := by simpa using h
    obtain ⟨hl, rfl⟩ := closing_of_stray hs
    exact .stray [] hl Token.closes_nil

/-- A fault that is met after a form is the same one before it. -/
theorem Faults.of_take (h : take failure stack ls = (.ok (some f), rest)) (hf : Faults [] rest e) :
    Faults (places stack) ls e := by
  fun_induction take failure stack ls with
  | case1 | case2 | case3 | case6 => simp at h
  | case4 stack l ls g hs hr =>
    obtain ⟨-, rfl⟩ : g = f ∧ ls = rest := by simpa using h
    have hs' : (shift l stack).stack? = some [] := by rw [hs]; rfl
    exact .of_shift hs' hf
  | case5 stack l ls stack' hs hr ih => exact .of_shift (by rw [hs]; rfl) (ih h)

theorem readAll_faults (h : readAll failure ls = .error e) : Faults [] ls e := by
  fun_induction readAll failure ls with
  | case1 ls fault rest ht =>
    obtain rfl : fault = e := by simpa using h
    exact take_faults ht
  | case2 => simp at h
  | case3 ls f rest ht fault hr ih =>
    obtain rfl : fault = e := by simpa using h
    exact .of_take ht (ih hr)
  | case4 => simp at h

/-- A list is only found to be open at the end of a text without a lexical fault. -/
theorem take_unclosed (h : take failure stack ls = (.error e, rest)) (he : e.fault = .unclosed)
    (hn : ls ≠ []) : failure = none := by
  fun_induction take failure stack ls with
  | case1 | case2 => exact absurd rfl hn
  | case3 stack l fault hf =>
    obtain ⟨rfl, -⟩ : fault.toReadError = e ∧ [] = rest := by simpa using h
    simp [LexError.toReadError] at he
  | case4 => simp at h
  | case5 stack l ls stack' hs hr ih =>
    cases ls with
    | nil => exact Option.eq_none_iff_forall_ne_some.2 fun fault hf => hr fault rfl hf
    | cons m ls => exact ih h (List.cons_ne_nil m ls)
  | case6 stack l ls hs hr =>
    obtain ⟨rfl, -⟩ : ⟨.unexpectedClose, l.after⟩ = e ∧ ls = rest := by simpa using h
    simp at he

theorem readAll_unclosed (h : readAll failure ls = .error e) (he : e.fault = .unclosed) :
    failure = none := by
  fun_induction readAll failure ls with
  | case1 ls fault rest ht =>
    obtain rfl : fault = e := by simpa using h
    refine take_unclosed ht he ?_
    rintro rfl
    simp [take] at ht
  | case2 => simp at h
  | case3 ls f rest ht fault hr ih =>
    obtain rfl : fault = e := by simpa using h
    exact ih hr
  | case4 => simp at h

end Reader

namespace Position

theorem advance_cases (p : Position) (c : Char) : p.line < (p.advance c).line ∨
    (p.advance c).line = p.line ∧ (p.advance c).column = p.column + 1 := by
  unfold advance
  split
  · exact Or.inl (Nat.lt_succ_self _)
  · exact Or.inr ⟨rfl, rfl⟩

/-- A text leads to a later line or further along the same one. -/
theorem past_cases (p : Position) (cs : List Char) : p.line < (p.past cs).line ∨
    (p.past cs).line = p.line ∧ (p.past cs).column = p.column + cs.length := by
  induction cs generalizing p with
  | nil => exact Or.inr ⟨rfl, rfl⟩
  | cons c cs ih =>
    have hs : p.past (c :: cs) = (p.advance c).past cs := rfl
    have ha := advance_cases p c
    have hp := ih (p.advance c)
    rw [hs, List.length_cons]
    omega

/-- Only the empty text leads back to where it begins. -/
theorem after_eq_after_append {pre cs : List Char} : after pre = after (pre ++ cs) ↔ cs = [] := by
  constructor
  · intro h
    have hp := past_cases (after pre) cs
    rw [past_after, ← h] at hp
    exact List.eq_nil_of_length_eq_zero (by omega)
  · rintro rfl
    rw [List.append_nil]

end Position

namespace Lexer

variable {pre : List Char} {ps : List Piece} {as bs : List Lexeme} {l : Lexeme}

theorem text_of_spells_opening {text : List Char} {t : Token} (h : Spells text t)
    (ht : t = .opening) : text = ['('] := by
  subst ht
  cases h
  rfl

theorem text_of_spells_closing {text : List Char} {t : Token} (h : Spells text t)
    (ht : t = .closing) : text = [')'] := by
  subst ht
  cases h
  rfl

/-- A token among those of pieces is that of one of them, and ends with it. -/
theorem placed_eq_append_cons (h : placed pre ps = as ++ l :: bs) : ∃ qs p rs, ps = qs ++ p :: rs ∧
    as.map Lexeme.token = qs.map Piece.token ∧ bs.map Lexeme.token = rs.map Piece.token ∧
    l = ⟨p.token, .after (pre ++ sources qs), .after (pre ++ sources qs ++ p.source)⟩ := by
  induction as generalizing pre ps with
  | nil =>
    cases ps with
    | nil => cases h
    | cons p ps =>
      obtain ⟨rfl, rfl⟩ := List.cons.inj h
      refine ⟨[], p, ps, rfl, rfl, map_placed _ ps, ?_⟩
      simp [sources]
  | cons a as ih =>
    cases ps with
    | nil => cases h
    | cons p ps =>
      obtain ⟨rfl, ht⟩ := List.cons.inj h
      obtain ⟨qs, q, rs, rfl, ha, hb, rfl⟩ := ih ht
      refine ⟨p :: qs, q, rs, rfl, ?_, hb, ?_⟩
      · rw [List.map_cons, List.map_cons, ha]
      · simp only [sources_cons, List.append_assoc]

end Lexer

/-- A reader begins with every token of its text, unless there is a lexical fault before any. -/
theorem Reader.ofSource_cases (source : String) :
    (∃ e : LexError, Reader.ofSource source = .error e.toReadError) ∨
      Reader.ofSource source =
        .ok ⟨(Lexed.ofSource source).lexemes, (Lexed.ofSource source).failure⟩ := by
  unfold Reader.ofSource
  dsimp only
  split
  · exact Or.inl ⟨_, rfl⟩
  · exact Or.inr rfl

namespace Form

variable {source : String} {e : ReadError}

/-- The fault of a text is about one of its tokens, and a list is only found to be open if there is
no lexical fault. -/
theorem faults_of_read (h : all source = .error e ∨ first? source = .error e) :
    Reader.Faults [] (Lexed.ofSource source).lexemes e ∧
      (e.fault = .unclosed → (Lexed.ofSource source).failure = none) := by
  rcases Reader.ofSource_cases source with ⟨fault, hr⟩ | hr
  · obtain rfl : fault.toReadError = e := by simpa [all, first?, hr] using h
    exact ⟨.lexical, fun hf => ReadFault.noConfusion hf⟩
  · simp only [all, first?, hr, Reader.read] at h
    rcases h with h | h
    · exact ⟨Reader.readAll_faults h, Reader.readAll_unclosed h⟩
    · have ht : Reader.take (Lexed.ofSource source).failure [] (Lexed.ofSource source).lexemes =
          (.error e, _) := Prod.ext h rfl
      refine ⟨Reader.take_faults ht, fun hf => Reader.take_unclosed ht hf ?_⟩
      intro hl
      simp [hl, Reader.take] at h

end Form

/-- A parenthesis that is reported as unclosed is the innermost one that is open where the text
ends, as everything after it is matched; it is reported where the token before it ends, which is its
own place only if it follows at once. One that is reported as unexpected is the first that closes
nothing, as everything before it is matched; it is reported one column after its own place. -/
theorem fault_places {source : String} {e : ReadError}
    (h : Form.all source = .error e ∨ Form.first? source = .error e) :
    (e.fault = .unclosed → ∃ pre p post rest,
      Lexer.Split source.toList (pre ++ p :: post) rest ∧ Lexer.Gap rest ∧ p.text = ['('] ∧
      Token.Closes 0 (post.map Lexer.Piece.token) ∧ e.place = .after (Lexer.sources pre) ∧
      (e.place = .after (Lexer.sources pre ++ p.gap) ↔ p.gap = [])) ∧
    (e.fault = .unexpectedClose → ∃ pre p post rest,
      Lexer.Split source.toList (pre ++ p :: post) rest ∧ p.text = [')'] ∧
      Token.Closes 0 (pre.map Lexer.Piece.token) ∧
      e.place = ⟨(Position.after (Lexer.sources pre ++ p.gap)).line,
        (Position.after (Lexer.sources pre ++ p.gap)).column + 1⟩) := by
  obtain ⟨ps, rest, hsplit, hlex, hstop, -⟩ := Lexer.scan_splits [] source.toList
  obtain ⟨hfaults, hclean⟩ := Form.faults_of_read h
  have hs : Lexed.ofSource source = Lexed.scan (.after []) source.toList := rfl
  rw [hs, hlex] at hfaults
  rw [hs] at hclean
  generalize hls : Lexer.placed [] ps = ls at hfaults
  generalize ho : ([] : List Position) = opened at hfaults
  cases hfaults with
  | lexical => exact ⟨fun hf => ReadFault.noConfusion hf, fun hf => ReadFault.noConfusion hf⟩
  | @stray _ as bs l hl hc =>
    obtain ⟨pre, p, post, rfl, ha, -, rfl⟩ := Lexer.placed_eq_append_cons hls
    have htext := Lexer.text_of_spells_closing (hsplit.spells p (by simp)) hl
    refine ⟨fun hf => ReadFault.noConfusion hf, fun _ => ?_⟩
    refine ⟨pre, p, post, rest, hsplit, htext, ?_, ?_⟩
    · rwa [← ha, show 0 = opened.length by rw [← ho]; rfl]
    · calc Position.after (Lexer.sources pre ++ p.source)
          = .after (Lexer.sources pre ++ p.gap ++ [')']) := by
            rw [Lexer.Piece.source, htext, List.append_assoc]
        _ = (Position.after (Lexer.sources pre ++ p.gap)).advance ')' :=
            (Position.advance_after _ ')').symm
  | @opened _ as bs l hl hc =>
    obtain ⟨pre, p, post, rfl, -, hb, rfl⟩ := Lexer.placed_eq_append_cons hls
    have htext := Lexer.text_of_spells_opening (hsplit.spells p (by simp)) hl
    refine ⟨fun hf => ?_, fun hf => ReadFault.noConfusion hf⟩
    refine ⟨pre, p, post, rest, hsplit, ?_, htext, hb ▸ hc, rfl, Position.after_eq_after_append⟩
    rw [hclean hf] at hstop
    cases hstop with
    | complete hg => exact hg
  | left => simp at ho

/-- The parenthesis that opens a list is reported before the blank that precedes it. -/
theorem fault_places_blank : Form.all " (a" = .error ⟨.unclosed, ⟨1, 1⟩⟩ ∧
    ∃ pre p post rest, Lexer.Split [' ', '(', 'a'] (pre ++ p :: post) rest ∧ p.text = ['('] ∧
      Position.after (Lexer.sources pre) = ⟨1, 1⟩ := by
  have h : Form.all " (a" = .error ⟨.unclosed, ⟨1, 1⟩⟩ := by cbv
  obtain ⟨pre, p, post, rest, hs, -, ht, -, hp, -⟩ := (fault_places (Or.inl h)).1 rfl
  exact ⟨h, pre, p, post, rest, hs, ht, hp.symm⟩

/-- A text with one parenthesis is reported at a place where the parenthesis is not. -/
theorem not_fault_places :
    (Form.all ")" = .error ⟨.unexpectedClose, ⟨1, 2⟩⟩ ∧
      ∀ pre post, [')'] = pre ++ ')' :: post → Position.after pre = ⟨1, 1⟩) ∧
    Form.all " (a" = .error ⟨.unclosed, ⟨1, 1⟩⟩ ∧
      ∀ pre post, [' ', '(', 'a'] = pre ++ '(' :: post → Position.after pre = ⟨1, 2⟩ := by
  refine ⟨⟨by cbv, fun pre post h => ?_⟩, by cbv, fun pre post h => ?_⟩
  · rcases pre with _ | ⟨c, pre⟩
    · rfl
    · simp at h
  · rcases pre with _ | ⟨c, _ | ⟨d, _ | ⟨a, pre⟩⟩⟩
    · simp at h
    · obtain ⟨rfl, -⟩ := List.cons.inj h
      rfl
    · simp at h
    · simp at h

end KLambda
