import KLambda.Proofs.FaultPlaces

/-!
Reading again and again. A reader may be asked for the next form after a fault as well as after a
form. Every reading that gives one or the other takes a token or more off the text, so there are no
more of them than tokens, and once a reading finds nothing all later ones do. Where reading goes on
depends on the fault: a parenthesis that closes nothing is only ever met as the first token, and is
the only one taken, while every other fault leaves no token behind.
-/
namespace KLambda

namespace Reader

variable {failure : Option LexError} {stack stack' : List OpenList} {l : Lexeme}
  {ls rest : List Lexeme} {e : ReadError} {f : Form} {r : Reader}
  {result : Except ReadError (Option Form)}

/-- The reader after a number of readings, whatever came of them. -/
def after (r : Reader) : Nat → Reader
  | 0 => r
  | n + 1 => (r.after n).read.2

@[simp]
theorem after_zero (r : Reader) : r.after 0 = r := rfl

theorem after_succ (r : Reader) (n : Nat) : r.after (n + 1) = (r.after n).read.2 := rfl

theorem after_read (r : Reader) (n : Nat) : r.read.2.after n = r.after (n + 1) := by
  induction n with
  | zero => rfl
  | succ n ih => rw [after_succ, ih, ← after_succ]

theorem take_suffix (failure : Option LexError) (stack : List OpenList) (ls : List Lexeme) :
    (take failure stack ls).2 <:+ ls := by
  fun_induction take failure stack ls with
  | case1 | case2 | case3 => exact List.nil_suffix
  | case4 | case6 => exact List.suffix_cons _ _
  | case5 stack l ls stack' hs hr ih => exact ih.trans (List.suffix_cons l ls)

/-- A list that is left open by a token is still open after it, or there are none. -/
theorem within_ne_nil (h : shift l stack = .within stack') : stack' ≠ [] := by
  have hput : ∀ (f : Form) (stack : List OpenList), put f stack = .within stack' → stack' ≠ [] := by
    intro f stack hp
    cases stack with
    | nil => cases hp
    | cons o stack =>
      cases hp
      exact List.cons_ne_nil _ _
  unfold shift at h
  split at h
  · cases h
    exact List.cons_ne_nil _ _
  · cases h
  all_goals exact hput _ _ h

/-- No parenthesis is stray while a list is open. -/
theorem take_open (hs : stack ≠ []) (h : take failure stack ls = (.error e, rest)) :
    e.fault ≠ .unexpectedClose ∧ rest = [] := by
  fun_induction take failure stack ls with
  | case1 => exact absurd rfl hs
  | case2 o stack =>
    obtain ⟨rfl, rfl⟩ : ⟨.unclosed, o.place⟩ = e ∧ [] = rest := by simpa using h
    exact ⟨by simp, rfl⟩
  | case3 stack l fault hf =>
    obtain ⟨rfl, rfl⟩ : fault.toReadError = e ∧ [] = rest := by simpa using h
    exact ⟨by simp [LexError.toReadError], rfl⟩
  | case4 => simp at h
  | case5 stack l ls stack' hw hr ih => exact ih (within_ne_nil hw) h
  | case6 stack l ls hw hr => exact absurd (closing_of_stray hw).2 hs

/-- What a reading gives, and what it takes off the tokens that were left. -/
inductive Step : List Lexeme → Except ReadError (Option Form) → List Lexeme → Prop
  | ended : Step [] (.ok none) []
  | form {f : Form} (taken : List Lexeme) {rest : List Lexeme}
      (h : taken.map Lexeme.token = f.tokens) : Step (taken ++ rest) (.ok (some f)) rest
  | stray {l : Lexeme} {rest : List Lexeme} (h : l.token = .closing) :
      Step (l :: rest) (.error ⟨.unexpectedClose, l.after⟩) rest
  | stopped {ls : List Lexeme} {e : ReadError} (hn : ls ≠ []) (he : e.fault ≠ .unexpectedClose) :
      Step ls (.error e) []

theorem step_of_error (h : take failure [] ls = (.error e, rest)) : Step ls (.error e) rest := by
  cases ls with
  | nil => simp [take] at h
  | cons l ls =>
    rw [take.eq_def] at h
    dsimp only at h
    split at h
    · rename_i fault
      obtain ⟨rfl, rfl⟩ : fault.toReadError = e ∧ [] = rest := by simpa using h
      exact .stopped (List.cons_ne_nil _ _) (by simp [LexError.toReadError])
    · split at h
      · cases h
      · obtain ⟨he, rfl⟩ := take_open (within_ne_nil ‹_›) h
        exact .stopped (List.cons_ne_nil _ _) he
      · obtain ⟨rfl, rfl⟩ : ⟨.unexpectedClose, l.after⟩ = e ∧ ls = rest := by simpa using h
        exact .stray (closing_of_stray ‹_›).1

theorem read_step (r : Reader) : Step r.pending r.read.1 r.read.2.pending := by
  have hr : r.read = ((take r.failure [] r.pending).1, ⟨_, r.failure⟩) := rfl
  rw [hr]
  have ht := take_taken r.failure [] r.pending
  have hs := take_suffix r.failure [] r.pending
  generalize htake : take r.failure [] r.pending = x at ht hs
  obtain ⟨_ | _ | f, rest⟩ := x
  · exact step_of_error htake
  · obtain ⟨-, hn⟩ := ht
    rw [hn] at hs ⊢
    obtain rfl := List.suffix_nil.1 hs
    exact .ended
  · obtain ⟨taken, ht'⟩ := hs
    have hw := ht.1
    rw [← ht', List.map_append] at hw
    rw [← ht']
    exact .form taken (List.append_cancel_right hw)

theorem Form.tokens_ne_nil (f : Form) : f.tokens ≠ [] := by
  cases f <;> simp [Form.tokens]

/-- Tokens are taken unless there is nothing to read. -/
theorem Step.consumes (h : Step ls result rest) (hr : result ≠ .ok none) :
    ∃ taken, taken ≠ [] ∧ ls = taken ++ rest := by
  cases h with
  | ended => exact absurd rfl hr
  | @form f taken _ ht =>
    refine ⟨taken, ?_, rfl⟩
    rintro rfl
    exact Form.tokens_ne_nil f ht.symm
  | @stray l => exact ⟨[l], List.cons_ne_nil _ _, rfl⟩
  | stopped hn => exact ⟨ls, hn, (List.append_nil ls).symm⟩

theorem read_ended_iff : r.read.1 = .ok none ↔ r.pending = [] := by
  constructor
  · intro h
    have hs := read_step r
    rw [h] at hs
    generalize r.pending = ls at hs
    generalize r.read.2.pending = rest at hs
    cases hs
    rfl
  · intro h
    simp [read, h, take]

theorem failure_after (r : Reader) (n : Nat) : (r.after n).failure = r.failure := by
  induction n with
  | zero => rfl
  | succ n ih => exact ih

theorem pending_after_suffix (r : Reader) {n m : Nat} (h : n ≤ m) :
    (r.after m).pending <:+ (r.after n).pending := by
  induction h with
  | refl => exact List.suffix_refl _
  | step _ ih => exact (take_suffix _ _ _).trans ih

/-- Once no tokens are left, nothing is read any more. -/
theorem ended_after {n m : Nat} (hn : (r.after n).pending = []) (h : n ≤ m) :
    (r.after m).read.1 = .ok none := by
  have hs := r.pending_after_suffix h
  rw [hn] at hs
  exact read_ended_iff.2 (List.suffix_nil.1 hs)

/-- There is a first reading that finds nothing, with fewer before it than there are tokens. -/
theorem exists_first_ended (r : Reader) :
    ∃ n ≤ r.pending.length, (∀ m < n, (r.after m).read.1 ≠ .ok none) ∧
      ∀ m ≥ n, (r.after m).read.1 = .ok none := by
  induction hl : r.pending.length using Nat.strongRecOn generalizing r with
  | _ k ih =>
    by_cases hp : r.pending = []
    · exact ⟨0, Nat.zero_le k, by simp, fun m _ => ended_after (n := 0) hp m.zero_le⟩
    · have hr : r.read.1 ≠ .ok none := mt read_ended_iff.1 hp
      obtain ⟨taken, hne, ht⟩ := (read_step r).consumes hr
      have hk : taken.length + r.read.2.pending.length = k := by
        rw [← hl, ht, List.length_append]
      have hpos := List.length_pos_iff.2 hne
      obtain ⟨n, hn, hbefore, hafter⟩ := ih _ (by omega) r.read.2 rfl
      refine ⟨n + 1, by omega, fun m hm => ?_, fun m hm => ?_⟩
      · cases m with
        | zero => exact hr
        | succ m =>
          rw [← after_read]
          exact hbefore m (by omega)
      · obtain ⟨m, rfl⟩ := Nat.exists_eq_add_of_le' (show 1 ≤ m by omega)
        rw [← after_read]
        exact hafter m (by omega)

end Reader

/-- Readings of a text that can be begun, each after whatever came of those before: one that gives a
form or a fault takes at least one token; there are at most as many of these as the text has tokens
before its end or its first lexical fault, and none once a reading has found nothing. After a
lexical fault or an unclosed list nothing is found any more. A stray parenthesis is the first token
that was left, and reading goes on with the token after it. -/
theorem rereading {source : String} {r : Reader} (h : Reader.ofSource source = .ok r) :
    r.pending = (Lexed.ofSource source).lexemes ∧
    (∀ n, (r.after n).read.1 ≠ .ok none →
      ∃ taken, taken ≠ [] ∧ (r.after n).pending = taken ++ (r.after (n + 1)).pending) ∧
    (∃ n ≤ (Lexed.ofSource source).lexemes.length,
      (∀ m < n, (r.after m).read.1 ≠ .ok none) ∧ ∀ m ≥ n, (r.after m).read.1 = .ok none) ∧
    (∀ n e, (r.after n).read.1 = .error e →
      ((∃ fault, e.fault = .lexical fault) ∨ e.fault = .unclosed →
        ∀ m > n, (r.after m).read.1 = .ok none) ∧
      (e.fault = .unexpectedClose → ∃ l, l.token = .closing ∧ e.place = l.after ∧
        r.after n = ⟨l :: (r.after (n + 1)).pending, r.failure⟩)) := by
  have hp : r.pending = (Lexed.ofSource source).lexemes := by
    unfold Reader.ofSource at h
    dsimp only at h
    split at h
    · cases h
    · cases h
      rfl
  refine ⟨hp, fun n hn => (Reader.read_step _).consumes hn, hp ▸ r.exists_first_ended, ?_⟩
  intro n e he
  have hs := Reader.read_step (r.after n)
  rw [he, ← r.after_succ] at hs
  have hf := r.failure_after n
  generalize r.after n = s at hs hf
  obtain ⟨ls, failure⟩ := s
  obtain rfl : failure = r.failure := hf
  dsimp only at hs
  generalize hrest : (r.after (n + 1)).pending = rest at hs
  cases hs with
  | @stray l _ hl =>
    refine ⟨?_, fun _ => ⟨l, hl, rfl, rfl⟩⟩
    rintro (⟨fault, hx⟩ | hx) <;> cases hx
  | stopped hn hne =>
    exact ⟨fun _ m hm => Reader.ended_after hrest hm, fun hx => absurd hx hne⟩

/-- A form, a stray parenthesis and a list that is never closed, and then nothing. -/
theorem rereading_stray : ∃ r, Reader.ofSource "a ) (b" = .ok r ∧
    (r.after 1).read.1 = .error ⟨.unexpectedClose, ⟨1, 4⟩⟩ ∧
    (∃ l : Lexeme, l.token = .closing ∧ r.after 1 = ⟨l :: (r.after 2).pending, r.failure⟩) ∧
    (r.after 2).read.1 = .error ⟨.unclosed, ⟨1, 4⟩⟩ ∧ ∀ m > 2, (r.after m).read.1 = .ok none := by
  let r : Reader := ⟨[⟨.symbol "a", ⟨1, 1⟩, ⟨1, 2⟩⟩, ⟨.closing, ⟨1, 2⟩, ⟨1, 4⟩⟩,
    ⟨.opening, ⟨1, 4⟩, ⟨1, 6⟩⟩, ⟨.symbol "b", ⟨1, 6⟩, ⟨1, 7⟩⟩], none⟩
  have h : Reader.ofSource "a ) (b" = .ok r := by cbv
  have hstray : (r.after 1).read.1 = .error ⟨.unexpectedClose, ⟨1, 4⟩⟩ := by cbv
  have hopen : (r.after 2).read.1 = .error ⟨.unclosed, ⟨1, 4⟩⟩ := by cbv
  obtain ⟨-, -, -, hfault⟩ := rereading h
  obtain ⟨l, hl, -, hr⟩ := (hfault 1 _ hstray).2 rfl
  exact ⟨r, h, hstray, ⟨l, hl, hr⟩, hopen, (hfault 2 _ hopen).1 (Or.inr rfl)⟩

end KLambda
