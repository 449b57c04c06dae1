import KLambda.Token.Lexer
import Mathlib.Data.List.Infix
import Mathlib.Data.List.TakeWhile

/-!
The grammar of source text. A text is split into lexemes and the gaps between them, which are runs
of blanks and comments. There is at most one way to split a text, and scanning finds it: the tokens
are those that the lexemes spell, and each is reported where it ends. A text that cannot be split
has a string or a comment without an end.
-/
namespace KLambda

/-- The place after a text: lines are counted by newlines, and columns by the characters since the
last of them. -/
def Position.after (cs : List Char) : Position :=
  ⟨1 + cs.count '\n', 1 + (cs.reverse.takeWhile (· != '\n')).length⟩

namespace Position

theorem past_append (p : Position) (cs ds : List Char) : p.past (cs ++ ds) = (p.past cs).past ds :=
  List.foldl_append

theorem advance_after (cs : List Char) (c : Char) : (after cs).advance c = after (cs ++ [c]) := by
  by_cases hc : c = '\n'
  · subst hc
    simp [advance, after, List.count_append, Nat.add_assoc]
  · have hb : (c == '\n') = false := by simpa using hc
    simp [advance, after, hb, List.count_append, List.count_singleton, Nat.add_comm, bne]

theorem past_after (pre cs : List Char) : (after pre).past cs = after (pre ++ cs) := by
  induction cs generalizing pre with
  | nil => simp [past]
  | cons c cs ih =>
    have hs : (after pre).past (c :: cs) = ((after pre).advance c).past cs := rfl
    rw [hs, advance_after, ih]
    simp

end Position

namespace Number

/-- A sign, if there is one: only a minus says that the number is negative. -/
def Sign (negative : Bool) (cs : List Char) : Prop :=
  if negative then cs = ['-'] else cs = [] ∨ cs = ['+']

def Digits (cs : List Char) : Prop := cs ≠ [] ∧ ∀ c ∈ cs, c.isDigit = true

/-- The spelling of a number, with an optional sign and an optional fraction, and what it comes to
when it is rounded to the nearest double. -/
inductive Spells : List Char → Float → Prop
  | whole {negative : Bool} {sign digits : List Char} (hs : Sign negative sign)
      (hd : Digits digits) :
      Spells (sign ++ digits) (signed negative (Float.ofScientific (digitsValue digits) false 0))
  | fraction {negative : Bool} {sign digits places : List Char} (hs : Sign negative sign)
      (hd : Digits digits) (hp : Digits places) :
      Spells (sign ++ (digits ++ '.' :: places)) (signed negative
        (Float.ofScientific (digitsValue (digits ++ places)) true places.length))

theorem isDigits_iff {cs : List Char} : isDigits cs = true ↔ Digits cs := by
  simp [isDigits, Digits]

theorem Digits.not_mem {cs : List Char} (h : Digits cs) {c : Char} (hc : c.isDigit = false) :
    c ∉ cs := by
  intro hm
  have := h.2 c hm
  simp [hc] at this

theorem splitAtMark_of_not_mem {mark : Char} {cs : List Char} (h : mark ∉ cs) :
    splitAtMark mark cs = (cs, none) := by
  have hd : cs.dropWhile (· != mark) = [] := by
    rw [List.dropWhile_eq_nil_iff]
    intro c hc
    have hne : c ≠ mark := by rintro rfl; exact h hc
    simpa using hne
  simp [splitAtMark, hd]

theorem splitAtMark_append {mark : Char} {cs : List Char} (h : mark ∉ cs) (ds : List Char) :
    splitAtMark mark (cs ++ mark :: ds) = (cs, some ds) := by
  have hp : ∀ c ∈ cs, (c != mark) = true := by
    intro c hc
    have hne : c ≠ mark := by rintro rfl; exact h hc
    simpa using hne
  have hd : (cs ++ mark :: ds).dropWhile (· != mark) = mark :: ds := by
    rw [List.dropWhile_append_of_pos hp]
    simp
  have ht : (cs ++ mark :: ds).takeWhile (· != mark) = cs := by
    rw [List.takeWhile_append_of_pos hp]
    simp
  simp [splitAtMark, hd, ht]

/-- What stands before and after a mark makes up the whole. -/
theorem splitAtMark_cases (mark : Char) (cs : List Char) :
    splitAtMark mark cs = (cs, none) ∨
      ∃ as bs, cs = as ++ mark :: bs ∧ splitAtMark mark cs = (as, some bs) := by
  by_cases h : mark ∈ cs
  · obtain ⟨as, bs, rfl, ha⟩ := List.eq_append_cons_of_mem h
    exact Or.inr ⟨as, bs, rfl, splitAtMark_append ha bs⟩
  · exact Or.inl (splitAtMark_of_not_mem h)

theorem splitSign_spec (cs : List Char) :
    ∃ sign, Sign (splitSign cs).1 sign ∧ cs = sign ++ (splitSign cs).2 := by
  fun_cases splitSign cs with
  | case1 cs => exact ⟨['-'], rfl, rfl⟩
  | case2 cs => exact ⟨['+'], Or.inr rfl, rfl⟩
  | case3 cs => exact ⟨[], Or.inl rfl, rfl⟩

theorem splitSign_append {negative : Bool} {sign digits : List Char} (hs : Sign negative sign)
    (hd : Digits digits) (rest : List Char) :
    splitSign (sign ++ (digits ++ rest)) = (negative, digits ++ rest) := by
  obtain ⟨c, ds, rfl⟩ := List.exists_cons_of_ne_nil hd.1
  have hm : c ≠ '-' := by rintro rfl; exact hd.not_mem (c := '-') rfl (by simp)
  have hp : c ≠ '+' := by rintro rfl; exact hd.not_mem (c := '+') rfl (by simp)
  cases negative with
  | true =>
    obtain rfl : sign = ['-'] := hs
    rfl
  | false =>
    rcases hs with rfl | rfl
    · simp [splitSign, hm, hp]
    · rfl

/-- An atom is read as a number exactly when it spells one. -/
theorem ofLexeme?_eq_some_iff {cs : List Char} {n : Float} :
    ofLexeme? cs = some n ↔ Spells cs n := by
  constructor
  · intro h
    obtain ⟨sign, hs, hc⟩ := splitSign_spec cs
    rw [hc]
    unfold ofLexeme? at h
    rcases splitAtMark_cases '.' (splitSign cs).2 with he | ⟨as, bs, hu, he⟩
    · simp only [he] at h
      split at h <;> cases h
      exact .whole hs (isDigits_iff.1 ‹_›)
    · simp only [he] at h
      split at h <;> cases h
      rename_i hd
      rw [Bool.and_eq_true] at hd
      rw [hu]
      exact .fraction hs (isDigits_iff.1 hd.1) (isDigits_iff.1 hd.2)
  · intro h
    cases h with
    | whole hs hd =>
      have hsign := splitSign_append hs hd []
      rw [List.append_nil] at hsign
      have hmark := splitAtMark_of_not_mem (hd.not_mem (c := '.') rfl)
      simp [ofLexeme?, hsign, hmark, isDigits_iff.2 hd]
    | @fraction negative sign digits places hs hd hp =>
      have hsign := splitSign_append hs hd ('.' :: places)
      have hmark := splitAtMark_append (hd.not_mem (c := '.') rfl) places
      simp [ofLexeme?, hsign, hmark, isDigits_iff.2 hd, isDigits_iff.2 hp]

end Number

namespace Lexer

def opener : List Char := ['\\', '*']

def closer : List Char := ['*', '\\']

/-- What may stand between lexemes: blanks and comments. A comment ends at the first closer after
its opener, the star of the opener not being part of one. -/
inductive Gap : List Char → Prop
  | nil : Gap []
  | blank {c : Char} {cs : List Char} (hc : Text.isBlank c = true) (h : Gap cs) : Gap (c :: cs)
  | comment {body cs : List Char} (hb : ¬ closer <:+: body ++ ['*']) (h : Gap cs) :
      Gap (opener ++ (body ++ closer ++ cs))

/-- A run of characters that are no delimiters, where no comment begins. -/
structure IsAtom (cs : List Char) : Prop where
  ne_nil : cs ≠ []
  inAtom (c : Char) : c ∈ cs → Lexer.inAtom c = true
  not_comment : ¬ opener <+: cs

/-- No atom could go on with this text. -/
def EndsAtom (cs : List Char) : Prop := ∀ c rest, cs = c :: rest → Lexer.inAtom c = false

/-- The lexemes, and the token that each of them spells. -/
inductive Spells : List Char → Token → Prop
  | opening : Spells ['('] .opening
  | closing : Spells [')'] .closing
  | str {cs : List Char} (h : '"' ∉ cs) : Spells ('"' :: (cs ++ ['"'])) (.str (String.ofList cs))
  | number {cs : List Char} {n : Float} (ha : IsAtom cs) (hn : Number.Spells cs n) :
      Spells cs (.number n)
  | symbol {cs : List Char} (ha : IsAtom cs) (hn : ∀ n, ¬ Number.Spells cs n) :
      Spells cs (.symbol (String.ofList cs))

/-- A lexeme with the gap before it and the token that it spells. -/
structure Piece where
  gap : List Char
  text : List Char
  token : Token

def Piece.source (p : Piece) : List Char := p.gap ++ p.text

/-- The text of pieces in order. -/
def sources (ps : List Piece) : List Char := ps.flatMap Piece.source

/-- A text begins with these pieces, of which atoms are as long as they can be, and goes on with the
rest. -/
inductive Split : List Char → List Piece → List Char → Prop
  | nil (cs : List Char) : Split cs [] cs
  | cons {p : Piece} {ps : List Piece} {cs rest : List Char} (hg : Gap p.gap)
      (ht : Spells p.text p.token) (hm : IsAtom p.text → EndsAtom cs) (h : Split cs ps rest) :
      Split (p.source ++ cs) (p :: ps) rest

theorem Split.spells {cs rest : List Char} {ps : List Piece} (h : Split cs ps rest) :
    ∀ p ∈ ps, Spells p.text p.token := by
  induction h with
  | nil => simp
  | cons _ ht _ _ ih => exact List.forall_mem_cons.2 ⟨ht, ih⟩

/-- No gap could begin with this text. -/
def Starts (cs : List Char) : Prop :=
  ¬ opener <+: cs ∧ ∀ c rest, cs = c :: rest → Text.isBlank c = false

variable {p : Position} {cs rest body : List Char} {star : Bool} {t : Token}

theorem starts_nil : Starts [] := by
  refine ⟨?_, ?_⟩ <;> simp [opener]

theorem Gap.append {ds : List Char} (h : Gap cs) (h' : Gap ds) : Gap (cs ++ ds) := by
  induction h with
  | nil => exact h'
  | blank hc _ ih => exact .blank hc ih
  | comment hb _ ih =>
    have := Gap.comment hb ih
    simpa using this

theorem Gap.of_blanks (h : ∀ c ∈ cs, Text.isBlank c = true) : Gap cs := by
  induction cs with
  | nil => exact .nil
  | cons c cs ih =>
    obtain ⟨hc, hs⟩ := List.forall_mem_cons.1 h
    exact .blank hc (ih hs)

/-- The text that a comment goes on with, and the star before it if there is one. -/
def starred (star : Bool) (cs : List Char) : List Char := if star then '*' :: cs else cs

theorem starred_suffix (c : Char) (cs : List Char) : starred (c == '*') cs <:+ c :: cs := by
  unfold starred
  split
  · rename_i hc
    rw [eq_of_beq hc]
  · exact List.suffix_cons c cs

theorem suffix_starred (star : Bool) (cs : List Char) : cs <:+ starred star cs := by
  cases star with
  | true => exact List.suffix_cons '*' cs
  | false => exact List.suffix_refl cs

/-- One character of a comment that does not close it. -/
theorem skip_comment_cons {c : Char} (h : ¬ closer <:+: starred star (c :: cs)) (ds : List Char) :
    skip (.comment star) p (c :: ds) = skip (.comment (c == '*')) (p.advance c) ds ∧
      ¬ closer <:+: starred (c == '*') cs := by
  have hc : (star && c == '\\') = false := by
    by_contra hn
    obtain ⟨rfl, rfl⟩ : star = true ∧ c = '\\' := by simpa using hn
    exact h ⟨[], cs, rfl⟩
  refine ⟨if_neg (by simp [hc]), fun hi => h ?_⟩
  exact hi.trans ((starred_suffix c cs).trans (suffix_starred star _)).isInfix

/-- A comment is skipped up to its closer. -/
theorem skip_closed (star : Bool) (h : ¬ closer <:+: starred star (body ++ ['*'])) (p : Position)
    (rest : List Char) :
    skip (.comment star) p (body ++ closer ++ rest) =
      skip .outside (p.past (body ++ closer)) rest := by
  induction body generalizing star p with
  | nil => cases star <;> rfl
  | cons c body ih =>
    obtain ⟨hs, hn⟩ := skip_comment_cons (p := p) h (body ++ closer ++ rest)
    exact hs.trans (ih _ hn _)

/-- A comment without a closer is skipped to the end of the text. -/
theorem skip_open (star : Bool) (h : ¬ closer <:+: starred star cs) (p : Position) :
    skip (.comment star) p cs = .error (p.past cs) := by
  induction cs generalizing star p with
  | nil => rfl
  | cons c cs ih =>
    obtain ⟨hs, hn⟩ := skip_comment_cons (p := p) h cs
    exact hs.trans (ih _ hn _)

/-- A comment has a first closer or none at all. -/
theorem closer_cases (cs : List Char) :
    (∃ body rest, cs = body ++ closer ++ rest ∧ ¬ closer <:+: body ++ ['*']) ∨
      ¬ closer <:+: cs := by
  induction cs with
  | nil => exact Or.inr (by simp [closer])
  | cons c cs ih =>
    by_cases hp : closer <+: c :: cs
    · obtain ⟨rest, hr⟩ := hp
      refine Or.inl ⟨[], rest, hr.symm, fun hi => ?_⟩
      have := hi.length_le
      simp [closer] at this
    · rcases ih with ⟨body, rest, rfl, hb⟩ | hn
      · refine Or.inl ⟨c :: body, rest, by simp, fun hi => ?_⟩
        rcases List.infix_cons_iff.1 hi with hx | hx
        · have ha : c :: (body ++ ['*']) <+: c :: (body ++ closer ++ rest) := by
            simp [closer]
          exact hp (hx.trans ha)
        · exact hb hx
      · refine Or.inr fun hi => ?_
        rcases List.infix_cons_iff.1 hi with hx | hx
        · exact hp hx
        · exact hn hx

theorem isBlank_backslash : Text.isBlank '\\' = false := by decide

/-- Outside comments one character is looked at, unless a comment begins with it. -/
theorem skip_cons {c : Char} (h : ¬ opener <+: c :: cs) (p : Position) :
    skip .outside p (c :: cs) =
      if Text.isBlank c then skip .outside (p.advance c) cs else .ok (p, c :: cs) := by
  rw [skip.eq_def]
  split
  · rename_i ds _ he
    cases he
    exact absurd ⟨ds, rfl⟩ h
  · rename_i he
    cases he
    rfl
  all_goals simp_all

theorem not_opener_of_blank {c : Char} (hc : Text.isBlank c = true) : ¬ opener <+: c :: cs := by
  rintro ⟨tail, he⟩
  obtain ⟨rfl, -⟩ := List.cons.inj he
  simp [isBlank_backslash] at hc

theorem skip_blank {c : Char} (hc : Text.isBlank c = true) (p : Position) (cs : List Char) :
    skip .outside p (c :: cs) = skip .outside (p.advance c) cs :=
  (skip_cons (not_opener_of_blank hc) p).trans (if_pos hc)

theorem skip_starts (h : Starts cs) (p : Position) : skip .outside p cs = .ok (p, cs) := by
  rcases cs with _ | ⟨c, cs⟩
  · rfl
  · have hc : Text.isBlank c = false := h.2 c cs rfl
    exact (skip_cons h.1 p).trans (if_neg (by simp [hc]))

/-- A gap is skipped as a whole, whatever follows it. -/
theorem skip_gap {gap : List Char} (hg : Gap gap) (p : Position) (cs : List Char) :
    skip .outside p (gap ++ cs) = skip .outside (p.past gap) cs := by
  induction hg generalizing p with
  | nil => rfl
  | blank hc _ ih =>
    rw [List.cons_append, skip_blank hc]
    exact ih _
  | @comment body gap hb _ ih =>
    have hc := skip_closed false hb (p.past opener) (gap ++ cs)
    calc skip .outside p (opener ++ (body ++ closer ++ gap) ++ cs)
        = skip (.comment false) (p.past opener) (body ++ closer ++ (gap ++ cs)) := by
          rw [List.append_assoc, List.append_assoc]
          rfl
      _ = skip .outside ((p.past opener).past (body ++ closer)) (gap ++ cs) := hc
      _ = skip .outside (p.past (opener ++ (body ++ closer ++ gap))) cs := by
          rw [ih]
          simp only [Position.past_append]

/-- Skipping stops where no gap goes on. -/
theorem skip_gap_starts {gap : List Char} (hg : Gap gap) (hs : Starts cs) (p : Position) :
    skip .outside p (gap ++ cs) = .ok (p.past gap, cs) :=
  (skip_gap hg p cs).trans (skip_starts hs _)

/-- What is known of the text before the place where skipping stops. -/
inductive Skips (p : Position) (cs : List Char) : Except Position (Position × List Char) → Prop
  | ok {gap rest : List Char} (he : cs = gap ++ rest) (hg : Gap gap) (hs : Starts rest) :
      Skips p cs (.ok (p.past gap, rest))
  | open {gap body : List Char} (he : cs = gap ++ (opener ++ body)) (hg : Gap gap)
      (hb : ¬ closer <:+: body) : Skips p cs (.error (p.past cs))

/-- A gap before the text that is known already. -/
theorem Skips.after {gap : List Char} (hg : Gap gap)
    {r : Except Position (Position × List Char)} (h : Skips (p.past gap) cs r) :
    Skips p (gap ++ cs) r := by
  cases h with
  | ok he hg' hs =>
    rw [← Position.past_append]
    exact .ok (by rw [he, List.append_assoc]) (hg.append hg') hs
  | «open» he hg' hb =>
    rw [← Position.past_append]
    exact .open (by rw [he, List.append_assoc]) (hg.append hg') hb

theorem skip_skips (p : Position) (cs : List Char) : Skips p cs (skip .outside p cs) := by
  induction hn : cs.length using Nat.strongRecOn generalizing p cs with
  | _ n ih =>
    by_cases hs : Starts cs
    · rw [skip_starts hs]
      exact .ok (List.nil_append cs).symm .nil hs
    · by_cases ho : opener <+: cs
      · obtain ⟨text, rfl⟩ := ho
        have hskip : skip .outside p (opener ++ text) =
            skip (.comment false) (p.past opener) text := rfl
        rw [hskip]
        rcases closer_cases text with ⟨body, rest, rfl, hb⟩ | hb
        · have hg : Gap (opener ++ (body ++ closer)) := by simpa using Gap.comment hb .nil
          have hc := skip_closed false hb (p.past opener) rest
          have hr := ih rest.length (by simp [← hn, opener]; omega)
            (p.past (opener ++ (body ++ closer))) rest rfl
          rw [hc, ← Position.past_append, ← List.append_assoc]
          exact hr.after hg
        · rw [skip_open false hb, ← Position.past_append]
          exact .open (List.nil_append _).symm .nil hb
      · obtain ⟨c, rest, rfl, hc⟩ : ∃ c rest, cs = c :: rest ∧ Text.isBlank c = true := by
          by_contra hx
          refine hs ⟨ho, fun c rest he => ?_⟩
          by_contra hc
          exact hx ⟨c, rest, he, by simpa using hc⟩
        rw [skip_blank hc]
        have hr := ih rest.length (by simp [← hn]) (p.past [c]) rest rfl
        exact hr.after (.blank hc .nil)

theorem inAtom_iff {c : Char} : inAtom c = true ↔
    Text.isBlank c = false ∧ c ≠ '(' ∧ c ≠ ')' ∧ c ≠ '"' := by
  simp [inAtom, and_assoc]

theorem inAtom_star : inAtom '*' = true := by decide

theorem spells_atom (ha : IsAtom cs) : Spells cs (atom cs) := by
  unfold atom
  split
  · rename_i n hn
    exact .number ha (Number.ofLexeme?_eq_some_iff.1 hn)
  · rename_i hn
    refine .symbol ha fun n hs => ?_
    rw [Number.ofLexeme?_eq_some_iff.2 hs] at hn
    cases hn

theorem atom_of_number {n : Float} (hn : Number.Spells cs n) : atom cs = .number n := by
  simp [atom, Number.ofLexeme?_eq_some_iff.2 hn]

theorem atom_of_symbol (hn : ∀ n, ¬ Number.Spells cs n) : atom cs = .symbol (String.ofList cs) := by
  have hx : Number.ofLexeme? cs = none := by
    cases hx : Number.ofLexeme? cs with
    | none => rfl
    | some n => exact absurd (Number.ofLexeme?_eq_some_iff.1 hx) (hn n)
  simp [atom, hx]

theorem endsAtom_nil : EndsAtom [] := by
  rintro c rest he
  cases he

theorem dropWhile_endsAtom (cs : List Char) : EndsAtom (cs.dropWhile inAtom) := by
  intro c rest he
  have hd := List.dropWhile_get_zero_not inAtom cs (by simp [he])
  simpa [he] using hd

theorem lexeme_atom {c : Char} (hc : inAtom c = true) (p : Position) (cs : List Char) :
    lexeme p (c :: cs) = .token (atom (c :: cs.takeWhile inAtom))
      (p.past (c :: cs.takeWhile inAtom)) (cs.dropWhile inAtom) := by
  obtain ⟨-, ho, hx, hq⟩ := inAtom_iff.1 hc
  rw [lexeme]
  · exact fun h => ho h
  · exact fun h => hx h
  · exact fun h => hq h

/-- The text of an atom that cannot go on is read to its end. -/
theorem lexeme_isAtom (ha : IsAtom cs) (hr : EndsAtom rest) (p : Position) :
    lexeme p (cs ++ rest) = .token (atom cs) (p.past cs) rest := by
  obtain ⟨c, ds, rfl⟩ := List.exists_cons_of_ne_nil ha.ne_nil
  have hds : ∀ d ∈ ds, inAtom d = true := fun d hd => ha.inAtom d (by simp [hd])
  have ht : rest.takeWhile inAtom = [] := by
    cases rest with
    | nil => rfl
    | cons d rest => simp [hr d rest rfl]
  have hd : rest.dropWhile inAtom = rest := by
    cases rest with
    | nil => rfl
    | cons d rest => simp [hr d rest rfl]
  rw [List.cons_append, lexeme_atom (ha.inAtom c (by simp)), List.takeWhile_append_of_pos hds, ht,
    List.append_nil, List.dropWhile_append_of_pos hds, hd]

theorem lexeme_str (h : '"' ∉ cs) (rest : List Char) (p : Position) :
    lexeme p ('"' :: (cs ++ ['"']) ++ rest) =
      .token (.str (String.ofList cs)) (p.past ('"' :: (cs ++ ['"']))) rest := by
  have hq : ∀ c ∈ cs, (c != '"') = true := by
    intro c hc
    have hne : c ≠ '"' := by rintro rfl; exact h hc
    simpa using hne
  have hd : (cs ++ '"' :: rest).dropWhile (· != '"') = '"' :: rest := by
    rw [List.dropWhile_append_of_pos hq]
    simp
  have ht : (cs ++ '"' :: rest).takeWhile (· != '"') = cs := by
    rw [List.takeWhile_append_of_pos hq]
    simp
  have hp : p.past ('"' :: (cs ++ ['"'])) = (p.past ('"' :: cs)).advance '"' := by
    rw [← List.cons_append, Position.past_append]
    rfl
  have hl : '"' :: (cs ++ ['"']) ++ rest = '"' :: (cs ++ '"' :: rest) := by simp
  rw [hl, hp]
  simp [lexeme, hd, ht]

/-- A lexeme is read to its end. -/
theorem lexeme_spells {text : List Char} (ht : Spells text t) (hm : IsAtom text → EndsAtom rest)
    (p : Position) : lexeme p (text ++ rest) = .token t (p.past text) rest := by
  cases ht with
  | opening => rfl
  | closing => rfl
  | str h => exact lexeme_str h rest p
  | number ha hn => rw [lexeme_isAtom ha (hm ha), atom_of_number hn]
  | symbol ha hn => rw [lexeme_isAtom ha (hm ha), atom_of_symbol hn]

/-- What is known of the text at a place where no gap begins. -/
inductive Reads (p : Position) (cs : List Char) : Next → Prop
  | done (he : cs = []) : Reads p cs (.done p)
  | token {text rest : List Char} {t : Token} (he : cs = text ++ rest) (ht : Spells text t)
      (hm : IsAtom text → EndsAtom rest) : Reads p cs (.token t (p.past text) rest)
  | open {body : List Char} (he : cs = '"' :: body) (hb : '"' ∉ body) :
      Reads p cs (.failed ⟨.unterminatedString, p, p.past cs⟩)

theorem not_isAtom_of_mem {c : Char} (hc : c ∈ cs) (hn : inAtom c = false) : ¬ IsAtom cs := by
  intro ha
  have := ha.inAtom c hc
  simp [hn] at this

theorem lexeme_reads (hs : Starts cs) (p : Position) : Reads p cs (lexeme p cs) := by
  rcases cs with _ | ⟨c, cs⟩
  · exact .done rfl
  by_cases ho : c = '('
  · subst ho
    exact .token List.singleton_append.symm .opening
      fun ha => (not_isAtom_of_mem (c := '(') (by simp) rfl ha).elim
  by_cases hx : c = ')'
  · subst hx
    exact .token List.singleton_append.symm .closing
      fun ha => (not_isAtom_of_mem (c := ')') (by simp) rfl ha).elim
  by_cases hq : c = '"'
  · subst hq
    by_cases hb : '"' ∈ cs
    · obtain ⟨body, rest, rfl, hn⟩ := List.eq_append_cons_of_mem hb
      have hl : '"' :: (body ++ '"' :: rest) = '"' :: (body ++ ['"']) ++ rest := by simp
      rw [hl, lexeme_str hn]
      exact .token rfl (.str hn)
        fun ha => (not_isAtom_of_mem (c := '"') (by simp) rfl ha).elim
    · have hd : cs.dropWhile (· != '"') = [] := by
        rw [List.dropWhile_eq_nil_iff]
        intro c hc
        have hne : c ≠ '"' := by rintro rfl; exact hb hc
        simpa using hne
      have hl : lexeme p ('"' :: cs) = .failed ⟨.unterminatedString, p, p.past ('"' :: cs)⟩ := by
        simp [lexeme, hd]
      rw [hl]
      exact .open rfl hb
  · have hc : inAtom c = true := inAtom_iff.2 ⟨hs.2 c cs rfl, ho, hx, hq⟩
    have he : c :: cs = (c :: cs.takeWhile inAtom) ++ cs.dropWhile inAtom := by
      simp [List.takeWhile_append_dropWhile]
    have ha : IsAtom (c :: cs.takeWhile inAtom) := by
      refine ⟨List.cons_ne_nil _ _, ?_, fun hp => hs.1 ?_⟩
      · intro d hd
        rcases List.mem_cons.1 hd with rfl | hd
        · exact hc
        · exact List.mem_takeWhile_imp hd
      · rw [he]
        exact hp.trans (List.prefix_append _ _)
    rw [lexeme_atom hc]
    exact .token he (spells_atom ha) fun _ => dropWhile_endsAtom cs

/-- No gap begins with a lexeme. -/
theorem starts_spells {text : List Char} (ht : Spells text t) (hm : IsAtom text → EndsAtom rest) :
    Starts (text ++ rest) := by
  have atom : IsAtom text → Starts (text ++ rest) := by
    intro ha
    obtain ⟨c, ds, rfl⟩ := List.exists_cons_of_ne_nil ha.ne_nil
    refine ⟨?_, ?_⟩
    · rintro ⟨tail, he⟩
      rcases ds with _ | ⟨d, ds⟩
      · -- the star would have to follow the atom, which could go on with it
        obtain ⟨rfl, hr⟩ : '\\' = c ∧ '*' :: tail = rest := by simpa [opener] using he
        exact Bool.noConfusion ((hm ha '*' tail hr.symm).symm.trans inAtom_star)
      · obtain ⟨rfl, rfl, -⟩ : '\\' = c ∧ '*' = d ∧ _ := by simpa [opener] using he
        exact ha.not_comment ⟨ds, rfl⟩
    · intro d tail he
      obtain ⟨rfl, -⟩ : c = d ∧ _ := by simpa using he
      exact (inAtom_iff.1 (ha.inAtom c (by simp))).1
  cases ht with
  | opening | closing | str h =>
    refine ⟨?_, ?_⟩
    · rintro ⟨tail, he⟩
      simp [opener] at he
    · rintro c tail he
      obtain ⟨rfl, -⟩ := List.cons.inj he
      decide
  | number ha hn => exact atom ha
  | symbol ha hn => exact atom ha

/-- The tokens of pieces after a text, each with the place where it ends. -/
def placed (pre : List Char) : List Piece → List Lexeme
  | [] => []
  | p :: ps => ⟨p.token, .after pre, .after (pre ++ p.source)⟩ :: placed (pre ++ p.source) ps

/-- What no lexeme can be read from, and how it is reported after a text: a gap is no fault, a
string without an end is reported at its quote and a comment without an end where the text ends. -/
inductive Stops (pre rest : List Char) : Option LexError → Prop
  | complete (hg : Gap rest) : Stops pre rest none
  | str {gap body : List Char} {e : LexError} (he : rest = gap ++ '"' :: body) (hg : Gap gap)
      (hb : '"' ∉ body) (ht : e.fault.text = "unterminated string")
      (hp : e.place = .after (pre ++ gap)) : Stops pre rest (some e)
  | comment {gap body : List Char} {e : LexError} (he : rest = gap ++ (opener ++ body))
      (hg : Gap gap) (hb : ¬ closer <:+: body) (ht : e.fault.text = "unterminated comment")
      (hp : e.place = .after (pre ++ rest)) : Stops pre rest (some e)

/-- What is known of the text after another one, where the next token is looked for. -/
inductive Finds (pre cs : List Char) : Next → Prop
  | done (hg : Gap cs) : Finds pre cs (.done (.after (pre ++ cs)))
  | token {piece : Piece} {rest : List Char} (he : cs = piece.source ++ rest) (hg : Gap piece.gap)
      (ht : Spells piece.text piece.token) (hm : IsAtom piece.text → EndsAtom rest) :
      Finds pre cs (.token piece.token (.after (pre ++ piece.source)) rest)
  | failed {e : LexError} (h : Stops pre cs (some e)) (hs : e.stop = .after (pre ++ cs)) :
      Finds pre cs (.failed e)

theorem next_finds (pre cs : List Char) : Finds pre cs (next (.after pre) cs) := by
  unfold next
  have hk := skip_skips (.after pre) cs
  generalize skip .outside (.after pre) cs = r at hk
  cases hk with
  | «open» he hg hb =>
    rw [Position.past_after]
    exact .failed (.comment he hg hb rfl rfl) rfl
  | @ok gap rest he hg hs =>
    have hl := lexeme_reads hs (.after (pre ++ gap))
    rw [Position.past_after]
    dsimp only
    generalize lexeme (.after (pre ++ gap)) rest = r at hl
    cases hl with
    | done hr =>
      have hc : cs = gap := by rw [he, hr, List.append_nil]
      rw [← hc]
      exact .done (hc ▸ hg)
    | @token text rest t hr ht hm =>
      rw [Position.past_after, List.append_assoc]
      have hc : cs = (Piece.mk gap text t).source ++ rest := by simp [he, hr, Piece.source]
      exact .token hc hg ht hm
    | «open» hr hb =>
      rw [Position.past_after, List.append_assoc, ← he]
      exact .failed (.str (he.trans (by rw [hr])) hg hb rfl rfl) rfl

theorem sources_cons (piece : Piece) (ps : List Piece) :
    sources (piece :: ps) = piece.source ++ sources ps := List.flatMap_cons

/-- Scanning takes pieces off a text until no lexeme is left. -/
theorem scan_splits (pre cs : List Char) : ∃ ps rest, Split cs ps rest ∧
    (Lexed.scan (.after pre) cs).lexemes = placed pre ps ∧
    Stops (pre ++ sources ps) rest (Lexed.scan (.after pre) cs).failure ∧
    (Lexed.scan (.after pre) cs).stop = .after (pre ++ cs) := by
  induction hn : cs.length using Nat.strongRecOn generalizing pre cs with
  | _ n ih =>
    have hx := next_finds pre cs
    rw [Lexed.scan]
    split
    · rename_i stop hd
      rw [hd] at hx
      cases hx with
      | done hg => exact ⟨[], cs, .nil cs, rfl, .complete hg, rfl⟩
    · rename_i e hf
      rw [hf] at hx
      cases hx with
      | failed h hs => exact ⟨[], cs, .nil cs, rfl, by simpa [sources] using h, hs⟩
    · rename_i t stop rest ht
      have hlt := length_next_lt ht
      rw [ht] at hx
      cases hx with
      | @token piece rest he hg hp hm =>
        obtain ⟨ps, left, hsplit, hlex, hfail, hstop⟩ :=
          ih rest.length (by omega) (pre ++ piece.source) rest rfl
        refine ⟨piece :: ps, left, ?_, ?_, ?_, ?_⟩
        · rw [he]
          exact .cons hg hp hm hsplit
        · simp only [hlex, placed]
        · rw [sources_cons, ← List.append_assoc]
          exact hfail
        · rw [he, ← List.append_assoc]
          exact hstop

theorem map_placed (pre : List Char) (ps : List Piece) :
    (placed pre ps).map Lexeme.token = ps.map Piece.token := by
  induction ps generalizing pre with
  | nil => rfl
  | cons p ps ih => simp only [placed, List.map_cons, ih]

theorem spells_ne_nil {text : List Char} (h : Spells text t) : text ≠ [] := by
  cases h with
  | opening | closing | str => exact List.cons_ne_nil _ _
  | number ha | symbol ha => exact ha.ne_nil

/-- The first gap of a text ends where its first lexeme begins. -/
theorem gap_unique {gap gap' cs' : List Char} (hg : Gap gap) (hs : Starts cs) (hg' : Gap gap')
    (hs' : Starts cs') (he : gap ++ cs = gap' ++ cs') : gap = gap' ∧ cs = cs' := by
  have h := skip_gap_starts hg hs .start
  have h' := skip_gap_starts hg' hs' .start
  rw [he, h', Except.ok.injEq, Prod.mk.injEq] at h
  obtain rfl := h.2
  exact ⟨List.append_cancel_right he, rfl⟩

/-- The first lexeme of a text is as long as it can be. -/
theorem lexeme_unique {text text' rest' : List Char} {t' : Token} (ht : Spells text t)
    (hm : IsAtom text → EndsAtom rest) (ht' : Spells text' t') (hm' : IsAtom text' → EndsAtom rest')
    (he : text ++ rest = text' ++ rest') : text = text' ∧ t = t' ∧ rest = rest' := by
  have h := lexeme_spells ht hm .start
  have h' := lexeme_spells ht' hm' .start
  rw [he, h', Next.token.injEq] at h
  obtain ⟨rfl, -, rfl⟩ := h
  exact ⟨List.append_cancel_right he, rfl, rfl⟩

theorem gap_ne_piece {piece : Piece} (hg : Gap cs) (hg' : Gap piece.gap)
    (ht : Spells piece.text piece.token) (hm : IsAtom piece.text → EndsAtom rest) :
    cs ≠ piece.source ++ rest := by
  intro he
  have hx : cs ++ [] = piece.gap ++ (piece.text ++ rest) := by
    rw [List.append_nil, he, Piece.source, List.append_assoc]
  have hu := gap_unique hg starts_nil hg' (starts_spells ht hm) hx
  exact spells_ne_nil ht (List.append_eq_nil_iff.1 hu.2.symm).1

theorem Split.unique {ps ps' : List Piece} {rest rest' : List Char} (h : Split cs ps rest)
    (hg : Gap rest) (h' : Split cs ps' rest') (hg' : Gap rest') : ps = ps' ∧ rest = rest' := by
  induction h generalizing ps' with
  | nil cs =>
    cases h' with
    | nil => exact ⟨rfl, rfl⟩
    | cons hgap ht hm => exact absurd rfl (gap_ne_piece hg hgap ht hm)
  | @cons p ps cs rest hgap ht hm h ih =>
    generalize hc : p.source ++ cs = text at h'
    cases h' with
    | nil => exact absurd hc.symm (gap_ne_piece hg' hgap ht hm)
    | @cons p' ps' cs' _ hgap' ht' hm' h' =>
      rw [Piece.source, Piece.source, List.append_assoc, List.append_assoc] at hc
      obtain ⟨hge, hrest⟩ := gap_unique hgap (starts_spells ht hm) hgap' (starts_spells ht' hm') hc
      obtain ⟨hte, htok, rfl⟩ := lexeme_unique ht hm ht' hm' hrest
      obtain ⟨rfl, rfl⟩ := ih hg h'
      have hp : p = p' := by
        cases p
        cases p'
        simp_all
      exact ⟨by rw [hp], rfl⟩

theorem next_gap {gap : List Char} (hg : Gap gap) (p : Position) (cs : List Char) :
    next p (gap ++ cs) = next (p.past gap) cs := by
  simp only [next, skip_gap hg]

@[simp]
theorem next_end (p : Position) : next p [] = .done p := rfl

/-- The next piece of a text is taken off as a whole. -/
theorem next_piece {piece : Piece} (hg : Gap piece.gap) (ht : Spells piece.text piece.token)
    (hm : IsAtom piece.text → EndsAtom rest) (p : Position) :
    next p (piece.source ++ rest) = .token piece.token (p.past piece.source) rest := by
  have hs := skip_starts (starts_spells ht hm) (p.past piece.gap)
  rw [Piece.source, List.append_assoc, next_gap hg, next, hs, Position.past_append]
  exact lexeme_spells ht hm _

theorem tokens?_scan_done {stop : Position} (h : next p cs = .done stop) :
    (Lexed.scan p cs).tokens? = some [] := by
  rw [Lexed.scan]
  split <;> simp_all [Lexed.tokens?]

theorem tokens?_scan_token {stop : Position} (h : next p cs = .token t stop rest) :
    (Lexed.scan p cs).tokens? = (Lexed.scan stop rest).tokens?.map (t :: ·) := by
  rw [Lexed.scan]
  split <;> simp_all [Lexed.tokens?]
  split <;> simp_all

theorem tokens?_eq_some_iff {l : Lexed} {ts : List Token} :
    l.tokens? = some ts ↔ l.failure = none ∧ l.lexemes.map Lexeme.token = ts := by
  unfold Lexed.tokens?
  split <;> simp_all

/-- Pieces are taken off a text one by one, also when more text follows that no atom goes on
with. -/
theorem tokens?_scan_split {ps : List Piece} (h : Split cs ps rest) {tail : List Char}
    (htail : EndsAtom tail) (p : Position) :
    (Lexed.scan p (cs ++ tail)).tokens? =
      (Lexed.scan (p.past (sources ps)) (rest ++ tail)).tokens?.map (ps.map Piece.token ++ ·) := by
  induction h generalizing p with
  | nil cs => simp [sources, Position.past]
  | @cons piece ps cs rest hg ht hm _ ih =>
    have hends : IsAtom piece.text → EndsAtom (cs ++ tail) := by
      intro ha
      cases cs with
      | nil => exact htail
      | cons c cs =>
        rintro d ds he
        obtain ⟨rfl, -⟩ := List.cons.inj he
        exact hm ha c cs rfl
    rw [List.append_assoc, tokens?_scan_token (next_piece hg ht hends p), ih, sources_cons,
      Position.past_append, Option.map_map]
    rfl

/-- The tokens of a text that can be split to its end. -/
theorem tokens?_scan_of_split {ps : List Piece} (h : Split cs ps rest) (hg : Gap rest)
    (p : Position) : (Lexed.scan p cs).tokens? = some (ps.map Piece.token) := by
  have hs := tokens?_scan_split h endsAtom_nil p
  have hd : next (p.past (sources ps)) rest = .done ((p.past (sources ps)).past rest) := by
    simpa using next_gap hg (p.past (sources ps)) []
  rw [List.append_nil, List.append_nil, tokens?_scan_done hd] at hs
  simpa using hs

/-- Scanning finds a split of the whole text if there is one. -/
theorem tokens?_scan_iff_split (pre cs : List Char) (ts : List Token) :
    (Lexed.scan (.after pre) cs).tokens? = some ts ↔
      ∃ ps rest, Split cs ps rest ∧ Gap rest ∧ ps.map Piece.token = ts := by
  constructor
  · intro h
    obtain ⟨ps, rest, hsplit, hlex, hstop, -⟩ := scan_splits pre cs
    obtain ⟨hf, ht⟩ := tokens?_eq_some_iff.1 h
    rw [hf] at hstop
    rw [hlex, map_placed] at ht
    cases hstop with
    | complete hg => exact ⟨ps, rest, hsplit, hg, ht⟩
  · rintro ⟨ps, rest, hsplit, hg, rfl⟩
    exact tokens?_scan_of_split hsplit hg _

/-- The tokens of a text do not depend on what stands before it. -/
theorem tokens?_scan_after (pre pre' cs : List Char) :
    (Lexed.scan (.after pre) cs).tokens? = (Lexed.scan (.after pre') cs).tokens? := by
  apply Option.ext
  intro ts
  rw [tokens?_scan_iff_split, tokens?_scan_iff_split]

end Lexer

/-- Every text begins with lexemes that are reported in order, each with the place after the text up
to its end, and what follows them is a gap or is reported as a string or a comment without an end.
The text has tokens exactly when it can be split into lexemes to its end, which can be done in one
way only, and the tokens are what these lexemes spell. -/
theorem lexes_iff_splits (source : String) :
    (∃ ps rest, Lexer.Split source.toList ps rest ∧
      (Lexed.ofSource source).lexemes = Lexer.placed [] ps ∧
      Lexer.Stops (Lexer.sources ps) rest (Lexed.ofSource source).failure ∧
      (Lexed.ofSource source).stop = .after source.toList) ∧
    (∀ ts, (Lexed.ofSource source).tokens? = some ts ↔
      ∃ ps rest, Lexer.Split source.toList ps rest ∧ Lexer.Gap rest ∧
        ps.map Lexer.Piece.token = ts) ∧
    (∀ ps rest ps' rest', Lexer.Split source.toList ps rest → Lexer.Gap rest →
      Lexer.Split source.toList ps' rest' → Lexer.Gap rest' → ps = ps' ∧ rest = rest') ∧
    ((Lexed.ofSource source).tokens? = none ↔ (Lexed.ofSource source).failure ≠ none) := by
  refine ⟨Lexer.scan_splits [] source.toList, Lexer.tokens?_scan_iff_split [] source.toList, ?_, ?_⟩
  · intro ps rest ps' rest' h hg h' hg'
    exact h.unique hg h' hg'
  · unfold Lexed.tokens?
    split <;> simp_all

end KLambda
