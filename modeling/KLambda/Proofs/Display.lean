import KLambda.Proofs.Shortest

/-!
Tokens written out and read again. Every token but a number that is not finite has a text of its
own, which lexing takes for that token wherever a blank follows, and lexing gives no other tokens.
-/
namespace KLambda

open Lexer

/-- The tokens that lexing gives: strings without a quote, and symbols that are atoms of another
spelling than that of a number. -/
def Token.Lexical : Token → Prop
  | .str s => '"' ∉ s.toList
  | .symbol s =>
    s.toList ≠ [] ∧
      (∀ c ∈ s.toList, Text.isBlank c = false ∧ c ≠ '(' ∧ c ≠ ')' ∧ c ≠ '"') ∧
      ¬ opener <+: s.toList ∧ ∀ n, ¬ Number.Spells s.toList n
  | _ => True

/-- A token that is no infinity and no NaN. -/
def Token.Finite (t : Token) : Prop := ∀ n, t = .number n → n.isFinite = true

/-- A gap that begins with a blank, so that no atom goes on with it. -/
structure Separates (gap : List Char) : Prop where
  isGap : Gap gap
  blank : ∃ (c : Char) (cs : List Char), gap = c :: cs ∧ Text.isBlank c = true

/-- The texts of tokens in order, with a separator between any two of them. -/
inductive Written : List Token → List Char → Prop
  | nil : Written [] []
  | single (t : Token) : Written [t] t.text.toList
  | cons (t : Token) {gap cs : List Char} {u : Token} {ts : List Token} (hg : Separates gap)
      (hw : Written (u :: ts) cs) : Written (t :: u :: ts) (t.text.toList ++ (gap ++ cs))

variable {t : Token} {ts : List Token} {cs gap : List Char} {n : Float}

namespace Number

/-- The characters of numbers. -/
def InNumber (c : Char) : Prop := c.isDigit = true ∨ c = '-' ∨ c = '+' ∨ c = '.'

theorem InNumber.inAtom {c : Char} (hc : InNumber c) : inAtom c = true := by
  rcases hc with hc | rfl | rfl | rfl
  · have hb : 48 ≤ c.toNat ∧ c.toNat ≤ 57 := by
      simpa [Char.isDigit, UInt32.le_iff_toNat_le] using hc
    have hblank : Text.isBlank c = false := by
      simp only [Text.isBlank, Bool.or_eq_false_iff, Bool.and_eq_false_iff, decide_eq_false_iff_not,
        beq_eq_false_iff_ne]
      omega
    refine inAtom_iff.2 ⟨hblank, ?_, ?_, ?_⟩ <;>
      · rintro rfl
        revert hc
        decide
  · decide
  · decide
  · decide

theorem Sign.inNumber {negative : Bool} (hs : Sign negative cs) {c : Char} (hc : c ∈ cs) :
    InNumber c := by
  unfold Sign at hs
  split at hs
  · simp_all [InNumber]
  · rcases hs with rfl | rfl <;> simp_all [InNumber]

theorem Spells.inNumber (hs : Spells cs n) {c : Char} (hc : c ∈ cs) : InNumber c := by
  cases hs with
  | whole hs hd =>
    rcases List.mem_append.1 hc with hc | hc
    · exact hs.inNumber hc
    · exact Or.inl (hd.2 c hc)
  | fraction hs hd hp =>
    rcases List.mem_append.1 hc with hc | hc
    · exact hs.inNumber hc
    rcases List.mem_append.1 hc with hc | hc
    · exact Or.inl (hd.2 c hc)
    rcases List.mem_cons.1 hc with rfl | hc
    · exact Or.inr (Or.inr (Or.inr rfl))
    · exact Or.inl (hp.2 c hc)

/-- What spells a number is an atom. -/
theorem Spells.isAtom (hs : Spells cs n) : IsAtom cs where
  ne_nil := by
    cases hs with
    | whole _ hd => exact List.append_ne_nil_of_right_ne_nil _ hd.1
    | fraction _ hd _ =>
      exact List.append_ne_nil_of_right_ne_nil _ (List.append_ne_nil_of_left_ne_nil hd.1 _)
  inAtom _ hc := (hs.inNumber hc).inAtom
  not_comment := by
    intro ho
    have hc : InNumber '\\' := hs.inNumber (ho.subset (by simp [opener]))
    revert hc
    simp [InNumber]

end Number

theorem Token.spells_text (hl : t.Lexical) (hf : t.Finite) : Spells t.text.toList t := by
  cases t with
  | opening => exact .opening
  | closing => exact .closing
  | number n =>
    have hn := Number.spells_text (hf n rfl)
    exact .number hn.isAtom hn
  | str s =>
    have hs : Spells ('"' :: (s.toList ++ ['"'])) (.str (String.ofList s.toList)) := .str hl
    simpa [text] using hs
  | symbol s =>
    obtain ⟨hne, hin, ho, hn⟩ := hl
    have ha : IsAtom s.toList := ⟨hne, fun c hc => inAtom_iff.2 (hin c hc), ho⟩
    simpa [text] using Spells.symbol ha hn

theorem Token.lexical_of_spells (h : Spells cs t) : t.Lexical := by
  cases h with
  | opening | closing | number => trivial
  | str h => simpa [Lexical] using h
  | symbol ha hn =>
    simp only [Lexical, String.toList_ofList]
    exact ⟨ha.ne_nil, fun c hc => inAtom_iff.1 (ha.inAtom c hc), ha.not_comment, hn⟩

theorem Separates.endsAtom (hg : Separates gap) (cs : List Char) : EndsAtom (gap ++ cs) := by
  obtain ⟨c, ds, rfl, hc⟩ := hg.blank
  rintro d rest he
  obtain ⟨rfl, -⟩ := List.cons.inj he
  simp [inAtom, hc]

/-- What is written splits into the texts of the tokens, each with the separator before it. -/
theorem Written.split (hw : Written ts cs) (ht : ∀ t ∈ ts, t.Lexical ∧ t.Finite) (hg : Gap gap) :
    ∃ ps rest, Split (gap ++ cs) ps rest ∧ Gap rest ∧ ps.map Piece.token = ts := by
  induction hw generalizing gap with
  | nil => exact ⟨[], gap ++ [], .nil _, by simpa using hg, rfl⟩
  | single t =>
    obtain ⟨hl, hf⟩ := ht t (by simp)
    have hs := Split.cons (p := ⟨gap, t.text.toList, t⟩) hg (t.spells_text hl hf)
      (fun _ => endsAtom_nil) (.nil [])
    exact ⟨_, [], by simpa [Piece.source] using hs, .nil, rfl⟩
  | @cons t sep cs u ts hsep _ ih =>
    obtain ⟨hl, hf⟩ := ht t (by simp)
    obtain ⟨ps, rest, hps, hrest, hmap⟩ :=
      ih (fun v hv => ht v (List.mem_cons_of_mem t hv)) hsep.isGap
    have hs := Split.cons (p := ⟨gap, t.text.toList, t⟩) hg (t.spells_text hl hf)
      (fun _ => hsep.endsAtom cs) hps
    exact ⟨_, rest, by simpa [Piece.source] using hs, hrest, by simp [hmap]⟩

/-- Tokens that are written out with separators between them are read as the same tokens, and only
such tokens are ever read, save that a number may be infinite. -/
theorem lexing_undoes_display :
    (∀ (ts : List Token) (source : String), (∀ t ∈ ts, t.Lexical ∧ t.Finite) →
      Written ts source.toList → (Lexed.ofSource source).tokens? = some ts) ∧
    ∀ (source : String) (ts : List Token), (Lexed.ofSource source).tokens? = some ts →
      ∀ t ∈ ts, t.Lexical := by
  refine ⟨fun ts source ht hw => ?_, fun source ts h t hm => ?_⟩
  · obtain ⟨ps, rest, hps, hrest, rfl⟩ := hw.split ht .nil
    exact tokens?_scan_of_split hps hrest .start
  · obtain ⟨ps, rest, hps, -, rfl⟩ := (tokens?_scan_iff_split [] source.toList ts).1 h
    obtain ⟨p, hp, rfl⟩ := List.mem_map.1 hm
    exact Token.lexical_of_spells (hps.spells p hp)

/-- A symbol that ends in a backslash, then a comment, a fraction, and a string that would open a
comment of its own. -/
theorem lexing_undoes_display_comment :
    (Lexed.ofSource "a\\ \\* ( *\\ -0.1 \"\\*\"").tokens? =
      some [.symbol "a\\", .number (-0.1), .str "\\*"] := by
  have hgap : Gap (' ' :: (opener ++ ([' ', '(', ' '] ++ closer ++ [' ']))) :=
    .blank (by decide) (.comment (by decide) (.blank (by decide) .nil))
  have hblank : Separates [' '] := ⟨.blank (by decide) .nil, ' ', [], rfl, by decide⟩
  have hnumber : (Token.number (-0.1)).text.toList = "-0.1".toList := by
    decide +kernel
  have hsymbol : (Token.symbol "a\\").Lexical := by
    have hin : ∀ c ∈ ['a', '\\'], inAtom c = true := List.all_eq_true.1 rfl
    refine ⟨by decide, fun c hc => inAtom_iff.1 (hin c hc), by decide, fun n hn => ?_⟩
    cases Number.ofLexeme?_eq_some_iff.2 hn
  have hstr : (Token.str "\\*").Lexical := by
    show '"' ∉ ['\\', '*']
    decide
  apply lexing_undoes_display.1
  · simp only [List.forall_mem_cons]
    refine ⟨⟨hsymbol, nofun⟩, ⟨trivial, fun n hn => ?_⟩, ⟨hstr, nofun⟩, nofun⟩
    obtain rfl := Token.number.inj hn
    decide +kernel
  · have hw := Written.cons (.symbol "a\\") ⟨hgap, ' ', _, rfl, by decide⟩
      (.cons (.number (-0.1)) hblank (.single (.str "\\*")))
    rw [hnumber] at hw
    exact hw

end KLambda
