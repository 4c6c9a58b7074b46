import ChartParser.Proofs.Parser.Tracking
/-!
# Token types of the built-in lexer rules

A built-in rule names its token type by the text of its matcher, and nothing in that
text is quoted. So two matchers have one token type in two cases: the rule for every
character and the rule for the full stop are both typed `.`, and a range is typed like
the list of its ends with the hyphen between them (`tokenType_ofMatcher_eq_iff`). A parser
compares types only. It therefore takes a token for one of a rule that rejects the
character, in just these cases (`token_misread_iff`).
-/
namespace ChartParser

/-- The built-in rule for a matcher. -/
def LexerRule.ofMatcher : Matcher → LexerRule
  | .char c => .char c
  | .range lo hi => .range lo hi
  | .oneOf cs => .oneOf cs
  | .any => .any

namespace Matcher

/-- The characters that name the token type of a matcher's built-in rule. -/
def typeName : Matcher → List Char
  | .char c => [c]
  | .range lo hi => ['[', lo, '-', hi, ']']
  | .oneOf cs => '[' :: cs ++ [']']
  | .any => ['.']

/-- Two different matchers whose built-in rules have one token type. -/
inductive SharesType : Matcher → Matcher → Prop
  | anyDot : SharesType .any (.char '.')
  | dotAny : SharesType (.char '.') .any
  | rangeList (lo hi : Char) : SharesType (.range lo hi) (.oneOf [lo, '-', hi])
  | listRange (lo hi : Char) : SharesType (.oneOf [lo, '-', hi]) (.range lo hi)

/-- The character `c` is taken by the first matcher and rejected by the second, which
has the same token type. The matcher for every character is never the second one. -/
inductive Misreads : Matcher → Matcher → Char → Prop
  | anyDot {c : Char} (hc : c ≠ '.') : Misreads .any (.char '.') c
  | rangeList {lo hi c : Char} (hlo : lo ≤ c) (hhi : c ≤ hi) (hc : c ∉ [lo, '-', hi]) :
    Misreads (.range lo hi) (.oneOf [lo, '-', hi]) c
  | listRange {lo hi c : Char} (hc : c ∈ [lo, '-', hi]) (hout : ¬(lo ≤ c ∧ c ≤ hi)) :
    Misreads (.oneOf [lo, '-', hi]) (.range lo hi) c

variable {m m' : Matcher} {c : Char}

@[simp] theorem accepts_ofMatcher (m : Matcher) (c : Char) : (LexerRule.ofMatcher m).accepts c = m.accepts c := by
  cases m <;> rfl

theorem tokenType_ofMatcher (m : Matcher) : (LexerRule.ofMatcher m).tokenType = ⟨String.ofList m.typeName⟩ := by
  cases m with
  | char c => exact congrArg TokenType.mk String.singleton_eq_ofList
  | range lo hi => rfl
  | oneOf cs => rfl
  | any => rfl

/-! ## When two types are one -/

/-- A text between brackets is no single character. -/
theorem bracketed_ne_singleton (cs : List Char) (c : Char) : '[' :: cs ++ [']'] ≠ [c] := by
  simp

/-- A list that is typed like a range has the ends of the range and the hyphen. -/
theorem typeName_range_eq_iff {lo hi : Char} {cs : List Char} :
    typeName (.range lo hi) = typeName (.oneOf cs) ↔ cs = [lo, '-', hi] := by
  have hrange : typeName (.range lo hi) = '[' :: ([lo, '-', hi] ++ [']']) := rfl
  have hlist : typeName (.oneOf cs) = '[' :: (cs ++ [']']) := rfl
  rw [hrange, hlist, List.cons.injEq, List.append_left_inj, eq_comm (a := cs)]
  simp

theorem typeName_eq_iff : m.typeName = m'.typeName ↔ m = m' ∨ SharesType m m' := by
  constructor
  · intro h
    cases m with
    | char c =>
      cases m' with
      | char d => exact .inl (by simpa [typeName] using h)
      | range => simp [typeName] at h
      | oneOf cs => exact absurd h.symm (bracketed_ne_singleton cs c)
      | any =>
        obtain rfl : c = '.' := by simpa [typeName] using h
        exact .inr .dotAny
    | range lo hi =>
      cases m' with
      | char => simp [typeName] at h
      | range lo' hi' => exact .inl (by simpa [typeName] using h)
      | oneOf cs =>
        obtain rfl := typeName_range_eq_iff.1 h
        exact .inr (.rangeList lo hi)
      | any => simp [typeName] at h
    | oneOf cs =>
      cases m' with
      | char c => exact absurd h (bracketed_ne_singleton cs c)
      | range lo hi =>
        obtain rfl := typeName_range_eq_iff.1 h.symm
        exact .inr (.listRange lo hi)
      | oneOf cs' => exact .inl (by simpa [typeName] using h)
      | any => exact absurd h (bracketed_ne_singleton cs '.')
    | any =>
      cases m' with
      | char c =>
        obtain rfl : c = '.' := by simpa [typeName, eq_comm] using h
        exact .inr .anyDot
      | range => simp [typeName] at h
      | oneOf cs => exact absurd h.symm (bracketed_ne_singleton cs '.')
      | any => exact .inl rfl
  · rintro (rfl | h)
    · rfl
    · cases h <;> rfl

/-- Two matchers with one token type are equal, but for the full stop beside every
character and a range beside the list of its text. -/
theorem tokenType_ofMatcher_eq_iff :
    (LexerRule.ofMatcher m).tokenType = (LexerRule.ofMatcher m').tokenType ↔ m = m' ∨ SharesType m m' := by
  rw [tokenType_ofMatcher, tokenType_ofMatcher, TokenType.mk.injEq, String.ofList_inj, typeName_eq_iff]

/-! ## What comes of it -/

/-- A matcher with the same type that takes other characters. -/
theorem SharesType.misreads_iff (h : SharesType m m') :
    m.accepts c = true ∧ m'.accepts c = false ↔ Misreads m m' c := by
  cases h with
  | anyDot =>
    constructor
    · rintro ⟨-, hc⟩
      exact .anyDot (by simpa [accepts] using hc)
    · rintro ⟨hc⟩
      simpa [accepts] using hc
  | dotAny =>
    constructor
    · rintro ⟨-, hc⟩
      cases hc
    · rintro ⟨⟩
  | rangeList lo hi =>
    constructor
    · rintro ⟨hin, hout⟩
      simp only [accepts, Bool.and_eq_true, decide_eq_true_eq] at hin
      exact .rangeList hin.1 hin.2 (by simpa [accepts] using hout)
    · intro hm
      cases hm with
      | rangeList hlo hhi hc => exact ⟨by simp [accepts, hlo, hhi], by simpa [accepts] using hc⟩
  | listRange lo hi =>
    constructor
    · rintro ⟨hin, hout⟩
      exact .listRange (by simpa [accepts] using hin) (by simpa [accepts] using hout)
    · intro hm
      cases hm with
      | listRange hc hout => exact ⟨by simpa [accepts] using hc, by simpa [accepts] using hout⟩

theorem Misreads.sharesType (h : Misreads m m' c) : SharesType m m' := by
  cases h with
  | anyDot => exact .anyDot
  | rangeList => exact .rangeList _ _
  | listRange => exact .listRange _ _

/-- Of the characters that a matcher takes, those that another one of its type rejects. -/
theorem misreads_iff : (m.accepts c = true ∧ (LexerRule.ofMatcher m).tokenType = (LexerRule.ofMatcher m').tokenType ∧
    m'.accepts c = false) ↔ Misreads m m' c := by
  constructor
  · rintro ⟨hin, htype, hout⟩
    rcases tokenType_ofMatcher_eq_iff.1 htype with rfl | h
    · rw [hin] at hout
      cases hout
    · exact h.misreads_iff.1 ⟨hin, hout⟩
  · intro h
    obtain ⟨hin, hout⟩ := h.sharesType.misreads_iff.2 h
    exact ⟨hin, tokenType_ofMatcher_eq_iff.2 (.inr h.sharesType), hout⟩

end Matcher

/-- The token of a rule and its type. -/
theorem LexerRule.exists_token?_iff {r : LexerRule} {c : Char} {n : Nat} {P : TokenType → Prop} :
    (∃ t, r.token? c n = some t ∧ P t.tokenType) ↔ r.accepts c = true ∧ P r.tokenType := by
  constructor
  · rintro ⟨t, ht, hP⟩
    rw [← token?_isSome r c n, ht, ← tokenType_of_token? ht]
    exact ⟨rfl, hP⟩
  · rintro ⟨hc, hP⟩
    exact ⟨_, if_pos hc, hP⟩

/-- A state that waits for a terminal expects the tokens of its type. -/
theorem State.expects_iff_of_postDot? {s : State} {l : LexerRule} (hs : s.rule.postDot? = some (.terminal l))
    {t : TokenType} : s.expects t = true ↔ t = l.tokenType := by
  rw [State.expects_iff]
  constructor
  · rintro ⟨l', hl', rfl⟩
    cases hs.symm.trans hl'
    rfl
  · rintro rfl
    exact ⟨l, hs, rfl⟩

/-- A character that the built-in rule for `m` makes a token of, and whose token has the
type of the built-in rule for `m'`, is accepted by that rule, too, unless one of three
things is the case: `m` takes every character, `m'` the full stop and `c` is another
character; `m` is a range, `m'` lists the ends of the range and the hyphen, and `c` is
some other character of the range; or `m` is such a list, `m'` is the range, and `c` lies
outside. In these cases, and in no others, a state that waits for a terminal which
rejects `c` moves over the token of `c`. -/
theorem token_misread_iff (m m' : Matcher) (c : Char) (n : Nat) {s : State}
    (hs : s.rule.postDot? = some (.terminal (.ofMatcher m'))) :
    ((∃ t, (LexerRule.ofMatcher m).token? c n = some t ∧ t.tokenType = (LexerRule.ofMatcher m').tokenType ∧
      (LexerRule.ofMatcher m').accepts c = false) ↔ m.Misreads m' c) ∧
    ((∃ t, (LexerRule.ofMatcher m).token? c n = some t ∧ s.expects t.tokenType = true ∧
      (LexerRule.ofMatcher m').accepts c = false) ↔ m.Misreads m' c) := by
  have hexpects : ∀ t, s.expects t = true ↔ t = (LexerRule.ofMatcher m').tokenType := fun _ =>
    State.expects_iff_of_postDot? hs
  simp only [hexpects, and_self]
  rw [LexerRule.exists_token?_iff (P := fun t => t = (LexerRule.ofMatcher m').tokenType ∧ _), Matcher.accepts_ofMatcher,
    Matcher.accepts_ofMatcher, Matcher.misreads_iff]

/-- A full stop and an `a`, or any character and a `b`. -/
def dotOrAny : Grammar where
  start := ⟨"S"⟩
  productions := [⟨⟨"S"⟩, [.terminal (.char '.'), .terminal (.char 'a')]⟩,
    ⟨⟨"S"⟩, [.terminal .any, .terminal (.char 'b')]⟩]
  ignored := []
  nullable := []
  lexerRules := [.char '.', .char 'a', .any, .char 'b']
  start_defined := by decide
  rhs_defined := fun _ hp _ hA => defines_of_undefinedUse?_eq_none (by decide) hp hA
  nullable_eq := by decide +kernel
  lexerRules_eq := by decide +kernel

namespace dotOrAny

def parser : Parser Unit := ⟨dotOrAny, true, .none⟩

/-- The tokens that the rules of the grammar make of `c`. -/
def readings (c : Char) (position : Nat) : List Token := dotOrAny.lexerRules.filterMap (·.token? c position)

/-- Waits for the full stop of the first production. -/
def awaiting : State := .normal ⟨0, ⟨"S"⟩, [], [.terminal (.char '.'), .terminal (.char 'a')]⟩ 0 none

end dotOrAny

/-- Of `x`, the rules of the grammar make one token, that of the rule for every character.
Its type is that of the full stop, which `x` is not. The parser takes it for the full
stop all the same, and `a` after it, and accepts the two. -/
theorem dot_misread : (LexerRule.char '.').accepts 'x' = false ∧
    ∃ t, LexerRule.any.token? 'x' 0 = some t ∧ t.tokenType = (LexerRule.char '.').tokenType ∧
      dotOrAny.readings 'x' 0 = [t] ∧
      ∃ run, (do
        Recognizer.performAll dotOrAny.parser (← dotOrAny.parser.start ())
          [.offer [t], .offer (dotOrAny.readings 'a' 1)]) = .ok ([.taken true, .taken true], run) ∧
        dotOrAny.parser.isAccepted run = true :=
  ⟨by decide, ⟨"x", 0, ⟨"."⟩⟩, by decide, by decide, by decide, _, by with_unfolding_all rfl, by with_unfolding_all rfl⟩

theorem token_misread_iff_dotOrAny :
    dotOrAny.awaiting.rule.postDot? = some (.terminal (.ofMatcher (.char '.'))) ∧
    ((∃ t, (LexerRule.ofMatcher .any).token? 'x' 0 = some t ∧ dotOrAny.awaiting.expects t.tokenType = true ∧
      (LexerRule.ofMatcher (.char '.')).accepts 'x' = false) ↔ Matcher.Misreads .any (.char '.') 'x') :=
  ⟨rfl, (token_misread_iff .any (.char '.') 'x' 0 (s := dotOrAny.awaiting) rfl).2⟩

end ChartParser
