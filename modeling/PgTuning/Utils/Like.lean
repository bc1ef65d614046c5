import Mathlib.Data.List.Infix

/-!
# LIKE

`MatchText` of `like_match.c`, compiled for single-byte encodings and for UTF-8, compares byte by
byte; only a wildcard advances by a whole character. What LIKE means is stated about characters
(`Matches`), so the proof has to show that the bytes never get out of step: the first byte of a
character says how long it is, and no later byte of one looks like a wildcard, an escape or a first
byte.
-/

namespace PgTuning.Utils.Like

open List Option Nat

/-- The encodings `like_match.c` is compiled for with a `NextChar` of its own. -/
inductive Encoding
  | singleByte
  | utf8

inductive LikeResult
  | likeTrue
  | likeFalse
  | likeAbort
  deriving DecidableEq

inductive LikeError
  /-- LIKE pattern must not end with escape character -/
  | invalidEscapeSequence
  deriving DecidableEq

/-- The bytes of `%`, `_` and the backslash. -/
abbrev percent : UInt8 := 37
abbrev underscore : UInt8 := 95
abbrev backslash : UInt8 := 92

/-- A byte that `NextChar` skips after the first one. -/
def Encoding.continues : Encoding → UInt8 → Bool
  | .singleByte, _ => false
  | .utf8, b => b &&& 0xC0 == 0x80

def nextChar (enc : Encoding) (t : List UInt8) : List UInt8 :=
  match enc with
  | .singleByte => t.tail
  | .utf8 => t.tail.dropWhile Encoding.utf8.continues

theorem nextChar_cons (enc : Encoding) (b : UInt8) (t : List UInt8) :
    nextChar enc (b :: t) = t.dropWhile enc.continues := by
  cases enc with
  | singleByte => cases t <;> rfl
  | utf8 => rfl

/-! ## The routine -/

/-- The loop over the wildcards that follow a `%`; `none` when the text is too short. -/
def skipWildcards (enc : Encoding) : List UInt8 → List UInt8 → Option (List UInt8 × List UInt8)
  | [], t => some ([], t)
  | b :: p, t =>
    if b = percent then skipWildcards enc p t
    else if b = underscore then
      if t.isEmpty then none else skipWildcards enc p (nextChar enc t)
    else some (b :: p, t)

/-- The loop that tries the rest of the pattern at each character that starts with
`firstpat`. -/
def scan (enc : Encoding) (firstpat : UInt8)
    (matchHere : List UInt8 → Except LikeError LikeResult) :
    List UInt8 → Except LikeError LikeResult
  | [] => .ok .likeAbort
  | b :: t =>
    match if b = firstpat then matchHere (b :: t) else .ok .likeFalse with
    | .ok .likeFalse => scan enc firstpat matchHere (nextChar enc (b :: t))
    | matched => matched
termination_by t => t.length
decreasing_by
  rw [nextChar_cons]
  exact lt_succ_of_le (dropWhile_suffix _).length_le

/-- The first byte to look for; `none` for a trailing escape. -/
def firstpat : List UInt8 → Option UInt8
  | [] => none
  | b :: p => if b = backslash then p.head? else some b

/-- The end of the text: the rest of the pattern has to be `%`s. -/
def endOfText (p : List UInt8) : LikeResult :=
  if (p.dropWhile (· == percent)).isEmpty then .likeTrue else .likeAbort

theorem skipWildcards_length {enc : Encoding} {p p' t t' : List UInt8}
    (h : skipWildcards enc p t = some (p', t')) : p'.length ≤ p.length := by
  induction p generalizing t with
  | nil =>
    cases h
    exact le_rfl
  | cons b p ih =>
    unfold skipWildcards at h
    split_ifs at h
    · exact le_succ_of_le (ih h)
    · exact le_succ_of_le (ih h)
    · cases h
      exact le_rfl

mutual

def matchText (enc : Encoding) (t p : List UInt8) : Except LikeError LikeResult :=
  if p = [percent] then .ok .likeTrue else matchLoop enc t p
termination_by (p.length, 1)

/-- The `while` loop of `MatchText` and what follows it. -/
def matchLoop (enc : Encoding) (t p : List UInt8) : Except LikeError LikeResult :=
  match t, p with
  | [], p => .ok (endOfText p)
  | _ :: _, [] => .ok .likeFalse
  | c :: t, b :: p =>
    if b = backslash then
      match p with
      | [] => .error .invalidEscapeSequence
      | q :: p => if q ≠ c then .ok .likeFalse else matchLoop enc t p
    else if b = percent then matchPercent enc (c :: t) p
    else if b = underscore then matchLoop enc (nextChar enc (c :: t)) p
    else if b ≠ c then .ok .likeFalse
    else matchLoop enc t p
termination_by (p.length, 0)

/-- The branch for `%`, with the pattern after it. -/
def matchPercent (enc : Encoding) (t p : List UInt8) : Except LikeError LikeResult :=
  match _h : skipWildcards enc p t with
  | none => .ok .likeAbort
  | some (p', t') =>
    if p'.isEmpty then .ok .likeTrue
    else
      match firstpat p' with
      | none => .error .invalidEscapeSequence
      | some first => scan enc first (fun t => matchText enc t p') t'
termination_by (p.length, 2)
decreasing_by
  have hLe := skipWildcards_length _h
  rcases lt_or_eq_of_le hLe with hLt | hEq
  · exact Prod.Lex.left _ _ hLt
  · rw [hEq]
    exact Prod.Lex.right _ (by decide)

end

/-! ## What LIKE means -/

/-- `pg_utf_mblen` of the first byte; every character of a single-byte encoding is a byte. -/
def Encoding.mblen : Encoding → UInt8 → Nat
  | .singleByte, _ => 1
  | .utf8, b =>
    if b &&& 0x80 = 0 then 1
    else if b &&& 0xE0 = 0xC0 then 2
    else if b &&& 0xF0 = 0xE0 then 3
    else if b &&& 0xF8 = 0xF0 then 4
    else 1

/-- A character: its first byte says how many follow, and all that follow are marked. -/
@[ext]
structure Character (enc : Encoding) where
  lead : UInt8
  rest : List UInt8
  lead_not_continues : enc.continues lead = false
  rest_continues : ∀ b ∈ rest, enc.continues b = true
  length_rest : rest.length + 1 = enc.mblen lead
  deriving DecidableEq

variable {enc : Encoding}

theorem nil_continues : ∀ b ∈ [], enc.continues b = true := forall_mem_nil _

def Character.bytes (c : Character enc) : List UInt8 := c.lead :: c.rest

/-- The bytes of a string of characters. -/
def encode (text : List (Character enc)) : List UInt8 := text.flatMap Character.bytes

/-- What one place of a pattern stands for. -/
inductive Item (enc : Encoding)
  | any
  | one
  | lit (c : Character enc)

/-- The places of a pattern; `none` when it ends with an escape. -/
def items : List (Character enc) → Option (List (Item enc))
  | [] => some []
  | c :: p =>
    if c.lead = backslash then
      match p with
      | [] => none
      | q :: p => (items p).map (.lit q :: ·)
    else if c.lead = percent then (items p).map (.any :: ·)
    else if c.lead = underscore then (items p).map (.one :: ·)
    else (items p).map (.lit c :: ·)

inductive Matches : List (Item enc) → List (Character enc) → Prop
  | nil : Matches [] []
  | any {its text} (skipped) : Matches its text → Matches (.any :: its) (skipped ++ text)
  | one {its text} (c) : Matches its text → Matches (.one :: its) (c :: text)
  | lit {its text} (c) : Matches its text → Matches (.lit c :: its) (c :: text)

section Matching

variable {its : List (Item enc)} {text : List (Character enc)} {a c : Character enc}

theorem matches_any : Matches (.any :: its) text ↔ ∃ s, s <:+ text ∧ Matches its s := by
  constructor
  · intro h
    cases h with
    | any skipped h => exact ⟨_, suffix_append _ _, h⟩
  · rintro ⟨s, ⟨skipped, rfl⟩, h⟩
    exact .any skipped h

theorem matches_one : Matches (.one :: its) (a :: text) ↔ Matches its text := by
  constructor
  · intro h
    cases h
    assumption
  · exact .one a

theorem matches_lit : Matches (.lit c :: its) (a :: text) ↔ a = c ∧ Matches its text := by
  constructor
  · intro h
    cases h with
    | lit _ h => exact ⟨rfl, h⟩
  · rintro ⟨rfl, h⟩
    exact .lit a h

theorem not_matches_nil {i : Item enc} (hAny : i ≠ .any) : ¬ Matches (i :: its) [] := by
  cases i with
  | any => exact absurd rfl hAny
  | one => exact fun h => nomatch h
  | lit c => exact fun h => nomatch h

theorem suffix_of_cons_suffix_cons {s : List (Character enc)} (h : c :: s <:+ a :: text) :
    s <:+ text := by
  rcases suffix_cons_iff.mp h with hEq | hSuffix
  · rw [(cons.inj hEq).2]
  · exact (suffix_cons c s).trans hSuffix

theorem matches_any_any : Matches (.any :: .any :: its) text ↔ Matches (.any :: its) text := by
  simp only [matches_any]
  constructor
  · rintro ⟨s, hs, s', hs', h⟩
    exact ⟨s', hs'.trans hs, h⟩
  · rintro ⟨s, hs, h⟩
    exact ⟨s, hs, s, suffix_refl s, h⟩

/-- After a `%`, a `_` only asks for one more character. -/
theorem matches_any_one :
    Matches (.any :: .one :: its) (a :: text) ↔ Matches (.any :: its) text := by
  simp only [matches_any]
  constructor
  · rintro ⟨s, hs, h⟩
    cases h with
    | one d h => exact ⟨_, suffix_of_cons_suffix_cons hs, h⟩
  · rintro ⟨s, ⟨skipped, rfl⟩, h⟩
    obtain ⟨d, front, hFront⟩ : ∃ d front, a :: skipped = front ++ [d] :=
      ⟨_, _, (dropLast_append_getLast (cons_ne_nil a skipped)).symm⟩
    refine ⟨d :: s, ⟨front, ?_⟩, .one d h⟩
    rw [← cons_append, hFront, append_assoc]
    rfl

end Matching

/-! ## Bytes and characters -/

theorem not_special_of_continues {b : UInt8} (h : enc.continues b) :
    b ≠ backslash ∧ b ≠ percent ∧ b ≠ underscore := by
  cases enc with
  | singleByte => cases h
  | utf8 =>
    refine ⟨?_, ?_, ?_⟩
    all_goals
      intro hEq
      rw [hEq] at h
      exact absurd h (by decide)

/-- `%`, `_` and the escape are whole characters. -/
theorem bytes_of_special {c : Character enc}
    (h : c.lead = backslash ∨ c.lead = percent ∨ c.lead = underscore) : c.bytes = [c.lead] := by
  have hLen := c.length_rest
  have hOne : enc.mblen c.lead = 1 := by
    cases enc with
    | singleByte => rfl
    | utf8 =>
      rcases h with h | h | h
      all_goals
        rw [h]
        decide
  have hRest : c.rest = [] := length_eq_zero_iff.mp (by omega)
  rw [Character.bytes, hRest]

theorem encode_cons (a : Character enc) (text : List (Character enc)) :
    encode (a :: text) = a.bytes ++ encode text := rfl

/-- `NextChar` skips exactly one character. -/
theorem nextChar_encode (a : Character enc) (text : List (Character enc)) :
    nextChar enc (encode (a :: text)) = encode text := by
  have hStop : (encode text).dropWhile enc.continues = encode text := by
    cases text with
    | nil => rfl
    | cons b text => exact dropWhile_cons_of_neg (by simp [b.lead_not_continues])
  rw [encode_cons, Character.bytes, cons_append, nextChar_cons,
    dropWhile_append_of_pos a.rest_continues, hStop]

section Step

variable {b x : UInt8} {t p : List UInt8}

theorem matchLoop_nil : matchLoop enc [] p = .ok (endOfText p) := by
  rw [matchLoop]

theorem matchLoop_percent :
    matchLoop enc (x :: t) (percent :: p) = matchPercent enc (x :: t) p := by
  rw [matchLoop.eq_def]
  dsimp only
  rw [if_neg (by decide), if_pos rfl]

/-- The branch for `%` once the wildcards after it have been skipped. -/
def afterWildcards (enc : Encoding) :
    Option (List UInt8 × List UInt8) → Except LikeError LikeResult
  | none => .ok .likeAbort
  | some (p, t) =>
    if p.isEmpty then .ok .likeTrue
    else
      match firstpat p with
      | none => .error .invalidEscapeSequence
      | some first => scan enc first (fun t => matchText enc t p) t

theorem matchPercent_eq : matchPercent enc t p = afterWildcards enc (skipWildcards enc p t) := by
  rw [matchPercent.eq_def]
  split
  · rename_i hSkip
    rw [hSkip]
    rfl
  · rename_i hSkip
    rw [hSkip]
    rfl

/-- The fast path returns what the loop would. -/
theorem matchText_eq : matchText enc t p = matchLoop enc t p := by
  rw [matchText]
  split_ifs with hFast
  · rw [hFast]
    cases t with
    | nil =>
      rw [matchLoop_nil]
      decide
    | cons x t =>
      rw [matchLoop_percent, matchPercent_eq]
      rfl
  · rfl

theorem matchLoop_underscore :
    matchLoop enc (x :: t) (underscore :: p) = matchLoop enc (nextChar enc (x :: t)) p := by
  rw [matchLoop.eq_def]
  dsimp only
  rw [if_neg (by decide), if_neg (by decide), if_pos rfl]

theorem matchLoop_plain (hb : b ≠ backslash ∧ b ≠ percent ∧ b ≠ underscore) :
    matchLoop enc (x :: t) (b :: p) = if x = b then matchLoop enc t p else .ok .likeFalse := by
  rw [matchLoop.eq_def]
  dsimp only
  rw [if_neg hb.1, if_neg hb.2.1, if_neg hb.2.2, ite_not]
  simp only [eq_comm]

theorem matchLoop_escape :
    matchLoop enc (x :: t) (backslash :: b :: p) =
      if x = b then matchLoop enc t p else .ok .likeFalse := by
  rw [matchLoop, if_pos rfl, ite_not]
  simp only [eq_comm]

/-- The later bytes of two characters of one length are compared like any others. -/
theorem matchLoop_rest {r' : List UInt8} (hr' : ∀ b ∈ r', enc.continues b) :
    ∀ r : List UInt8, r.length = r'.length → matchLoop enc (r ++ t) (r' ++ p) =
      if r = r' then matchLoop enc t p else .ok .likeFalse := by
  induction r' with
  | nil =>
    intro r hLen
    rw [length_eq_zero_iff.mp hLen]
    rfl
  | cons b r' ih =>
    intro r hLen
    cases r with
    | nil => cases hLen
    | cons x r =>
      have hTail := ih (fun b hb => hr' b (by simp [hb])) r (succ.inj hLen)
      rw [cons_append, cons_append,
        matchLoop_plain (not_special_of_continues (hr' b (by simp))), hTail]
      by_cases hHead : x = b
      · rw [hHead]
        simp
      · rw [if_neg hHead, if_neg (by simp [hHead])]

/-- After equal first bytes the lengths agree, so the characters are compared as a whole. -/
theorem compare_chars (a c : Character enc) :
    (if a.lead = c.lead then matchLoop enc (a.rest ++ t) (c.rest ++ p) else .ok .likeFalse) =
      if a = c then matchLoop enc t p else .ok .likeFalse := by
  by_cases hLead : a.lead = c.lead
  · have hLen : a.rest.length = c.rest.length := by
      have ha := a.length_rest
      have hc := c.length_rest
      rw [hLead] at ha
      omega
    rw [if_pos hLead, matchLoop_rest c.rest_continues _ hLen]
    simp only [Character.ext_iff, hLead, true_and]
  · rw [if_neg hLead, if_neg fun hEq => hLead (by rw [hEq])]

end Step

/-! ## Correctness -/

/-- What each result says about the text and the pattern. -/
def Answers (its : List (Item enc)) (text : List (Character enc)) : LikeResult → Prop
  | .likeTrue => Matches its text
  | .likeFalse => ¬ Matches its text
  | .likeAbort => ∀ s, s <:+ text → ¬ Matches its s

section Answers

variable {its its' : List (Item enc)} {text text' : List (Character enc)} {a c : Character enc}
  {r : LikeResult}

/-- After a `%` the text cannot be matched later if it cannot be matched at all. -/
theorem answers_any_abort (h : ¬ Matches (.any :: its) text) :
    Answers (.any :: its) text .likeAbort := by
  intro s hs hMatch
  obtain ⟨s', hs', hRest⟩ := matches_any.mp hMatch
  exact h (matches_any.mpr ⟨s', hs'.trans hs, hRest⟩)

theorem Answers.any_congr (h : Answers (.any :: its) text r)
    (hIff : Matches (.any :: its') text' ↔ Matches (.any :: its) text) :
    Answers (.any :: its') text' r := by
  cases r with
  | likeTrue => exact hIff.mpr h
  | likeFalse => exact fun hMatch => h (hIff.mp hMatch)
  | likeAbort => exact answers_any_abort fun hMatch => h _ (suffix_refl _) (hIff.mp hMatch)

section

variable (h : Answers its text r)
include h

/-- A place that takes one character: the rest of the text answers for the whole. -/
theorem Answers.cons {i : Item enc} (hIff : Matches (i :: its) (a :: text) ↔ Matches its text)
    (hOne : ∀ s, Matches (i :: its) s → ∃ d s', s = d :: s' ∧ Matches its s') :
    Answers (i :: its) (a :: text) r := by
  cases r with
  | likeTrue => exact hIff.mpr h
  | likeFalse => exact fun hMatch => h (hIff.mp hMatch)
  | likeAbort =>
    intro s hs hMatch
    obtain ⟨d, s', hEq, hRest⟩ := hOne s hMatch
    rw [hEq] at hs
    exact h s' (suffix_of_cons_suffix_cons hs) hRest

theorem Answers.one : Answers (.one :: its) (a :: text) r := by
  apply h.cons matches_one
  intro s hMatch
  cases hMatch with
  | one d h => exact ⟨d, _, rfl, h⟩

theorem Answers.lit : Answers (.lit a :: its) (a :: text) r := by
  apply h.cons (matches_lit.trans (and_iff_right rfl))
  intro s hMatch
  cases hMatch with
  | lit d h => exact ⟨a, _, rfl, h⟩

theorem Answers.likeTrue_iff : r = .likeTrue ↔ Matches its text := by
  cases r with
  | likeTrue => exact iff_of_true rfl h
  | likeFalse => exact iff_of_false (by simp) h
  | likeAbort => exact iff_of_false (by simp) (h text (suffix_refl _))

end

theorem answers_nil_abort (h : ¬ Matches its []) : Answers its [] .likeAbort := by
  intro s hs
  rw [suffix_nil.mp hs]
  exact h

end Answers

/-- `p` is matched as `its` says, from wherever the text is. -/
def LoopAnswers (p : List UInt8) (its : List (Item enc)) : Prop :=
  ∀ text, ∃ r, matchLoop enc (encode text) p = .ok r ∧ Answers its text r

def PercentAnswers (p : List UInt8) (its : List (Item enc)) : Prop :=
  ∀ text, ∃ r, matchPercent enc (encode text) p = .ok r ∧ Answers (.any :: its) text r

section Literal

variable {p q : List UInt8} {its : List (Item enc)} {c : Character enc}

theorem endOfText_eq_abort {b : UInt8} (hb : b ≠ percent) : endOfText (b :: q) = .likeAbort := by
  rw [endOfText, dropWhile_cons_of_neg (by simpa using hb)]
  rfl

/-- How the first place of `q`, a literal, is compared. -/
def Compares (q p : List UInt8) (c : Character enc) : Prop :=
  ∀ (a : Character enc) (t : List UInt8), matchLoop enc (a.bytes ++ t) q =
    if a = c then matchLoop enc t p else .ok .likeFalse

theorem LoopAnswers.lit (h : LoopAnswers p its) (hEnd : endOfText q = .likeAbort)
    (hCompare : Compares q p c) : LoopAnswers q (.lit c :: its) := by
  intro text
  cases text with
  | nil =>
    refine ⟨.likeAbort, ?_, answers_nil_abort (not_matches_nil (by simp))⟩
    rw [← hEnd]
    exact matchLoop_nil
  | cons a text =>
    rw [encode_cons, hCompare a]
    by_cases hEq : a = c
    · obtain ⟨r, hRun, hAnswer⟩ := h text
      rw [if_pos hEq, ← hEq]
      exact ⟨r, hRun, hAnswer.lit⟩
    · rw [if_neg hEq]
      exact ⟨.likeFalse, rfl, fun hMatch => hEq (matches_lit.mp hMatch).1⟩

/-- The scan for a literal tries every place where the literal can start. -/
theorem scan_answers (h : LoopAnswers q (.lit c :: its)) (text : List (Character enc)) :
    ∃ r, scan enc c.lead (fun t => matchText enc t q) (encode text) = .ok r ∧
      Answers (.any :: .lit c :: its) text r := by
  induction text with
  | nil =>
    refine ⟨.likeAbort, by rw [encode, flatMap_nil, scan], answers_any_abort ?_⟩
    intro hMatch
    obtain ⟨s, hs, hRest⟩ := matches_any.mp hMatch
    rw [suffix_nil.mp hs] at hRest
    exact not_matches_nil (by simp) hRest
  | cons a text ih =>
    obtain ⟨r, hScan, hAnswer⟩ := ih
    have hLater : ¬ Matches (.lit c :: its) (a :: text) →
        Answers (.any :: .lit c :: its) (a :: text) r := by
      intro hNot
      apply hAnswer.any_congr
      simp only [matches_any, suffix_cons_iff]
      constructor
      · rintro ⟨s, rfl | hs, hMatch⟩
        · exact absurd hMatch hNot
        · exact ⟨s, hs, hMatch⟩
      · rintro ⟨s, hs, hMatch⟩
        exact ⟨s, .inr hs, hMatch⟩
    have hNext : nextChar enc (a.lead :: (a.rest ++ encode text)) = encode text :=
      nextChar_encode a text
    show ∃ r, scan enc c.lead _ (a.lead :: (a.rest ++ encode text)) = .ok r ∧ _
    rw [scan, hNext]
    by_cases hLead : a.lead = c.lead
    · obtain ⟨r', hRun, hHere⟩ := h (a :: text)
      have hText : matchText enc (a.lead :: (a.rest ++ encode text)) q = .ok r' :=
        matchText_eq.trans hRun
      rw [if_pos hLead, hText]
      cases r' with
      | likeTrue => exact ⟨_, rfl, matches_any.mpr ⟨_, suffix_refl _, hHere⟩⟩
      | likeFalse => exact ⟨r, hScan, hLater hHere⟩
      | likeAbort =>
        refine ⟨_, rfl, answers_any_abort fun hMatch => ?_⟩
        obtain ⟨s, hs, hRest⟩ := matches_any.mp hMatch
        exact hHere s hs hRest
    · rw [if_neg hLead]
      refine ⟨r, hScan, hLater fun hMatch => ?_⟩
      exact hLead (congrArg Character.lead (matches_lit.mp hMatch).1)

/-- A literal after a `%` is looked for by its first byte. -/
theorem LoopAnswers.percent {b : UInt8} (h : LoopAnswers (b :: q) (.lit c :: its))
    (hb : b ≠ Like.percent ∧ b ≠ underscore) (hFirst : firstpat (b :: q) = some c.lead) :
    PercentAnswers (b :: q) (.lit c :: its) := by
  intro text
  have hSkip : skipWildcards enc (b :: q) (encode text) = some (b :: q, encode text) := by
    rw [skipWildcards, if_neg hb.1, if_neg hb.2]
  obtain ⟨r, hScan, hAnswer⟩ := scan_answers h text
  refine ⟨r, ?_, hAnswer⟩
  rw [matchPercent_eq, hSkip, ← hScan]
  simp only [afterWildcards, hFirst, isEmpty_cons, Bool.false_eq_true, if_false]

end Literal

section Wildcards

variable {p : List UInt8} {its : List (Item enc)}

theorem LoopAnswers.any (h : LoopAnswers p its) (hPercent : PercentAnswers p its) :
    LoopAnswers (Like.percent :: p) (.any :: its) := by
  intro text
  cases text with
  | nil =>
    obtain ⟨r, hRun, hAnswer⟩ := h []
    have hEnd : endOfText (Like.percent :: p) = r := by
      rw [endOfText, dropWhile_cons_of_pos (by simp)]
      exact Except.ok.inj (matchLoop_nil.symm.trans hRun)
    refine ⟨r, by rw [← hEnd]; exact matchLoop_nil, ?_⟩
    cases r with
    | likeTrue => exact .any [] hAnswer
    | likeFalse => exact absurd hEnd (by unfold endOfText; split_ifs <;> simp)
    | likeAbort =>
      refine answers_any_abort fun hMatch => ?_
      obtain ⟨s, hs, hRest⟩ := matches_any.mp hMatch
      exact hAnswer s hs hRest
  | cons a text =>
    obtain ⟨r, hRun, hAnswer⟩ := hPercent (a :: text)
    exact ⟨r, matchLoop_percent.trans hRun, hAnswer⟩

theorem LoopAnswers.one (h : LoopAnswers p its) : LoopAnswers (underscore :: p) (.one :: its) := by
  intro text
  cases text with
  | nil =>
    refine ⟨.likeAbort, ?_, answers_nil_abort (not_matches_nil (by simp))⟩
    exact matchLoop_nil
  | cons a text =>
    obtain ⟨r, hRun, hAnswer⟩ := h text
    refine ⟨r, ?_, hAnswer.one⟩
    rw [← hRun, ← nextChar_encode a text]
    exact matchLoop_underscore

theorem PercentAnswers.one (h : PercentAnswers p its) :
    PercentAnswers (underscore :: p) (.one :: its) := by
  intro text
  cases text with
  | nil =>
    refine ⟨.likeAbort, ?_, answers_any_abort fun hMatch => ?_⟩
    · rw [matchPercent_eq]
      rfl
    · obtain ⟨s, hs, hRest⟩ := matches_any.mp hMatch
      rw [suffix_nil.mp hs] at hRest
      exact not_matches_nil (by simp) hRest
  | cons a text =>
    obtain ⟨r, hRun, hAnswer⟩ := h text
    refine ⟨r, ?_, hAnswer.any_congr matches_any_one⟩
    rw [← hRun, matchPercent_eq, matchPercent_eq, ← nextChar_encode a text]
    rfl

end Wildcards

/-- Loop and `%` branch answer for every pattern, by recursion over its characters. -/
theorem pattern_answers (pattern : List (Character enc)) :
    ∀ its, items pattern = some its →
      LoopAnswers (encode pattern) its ∧ PercentAnswers (encode pattern) its := by
  fun_induction items pattern with
  | case1 =>
    intro its h
    cases h
    constructor
    · intro text
      cases text with
      | nil => exact ⟨.likeTrue, matchLoop_nil, .nil⟩
      | cons a text =>
        refine ⟨.likeFalse, ?_, fun hMatch => nomatch hMatch⟩
        show matchLoop enc (a.lead :: (a.rest ++ encode text)) [] = _
        rw [matchLoop]
    · intro text
      refine ⟨.likeTrue, ?_, matches_any.mpr ⟨[], nil_suffix, .nil⟩⟩
      rw [matchPercent_eq]
      rfl
  | case2 => intro its h; cases h
  | case3 c hLead q p ih =>
    intro its h
    obtain ⟨its, hItems, rfl⟩ := map_eq_some_iff.mp h
    have hBytes : encode (c :: q :: p) = backslash :: (q.bytes ++ encode p) := by
      rw [encode_cons, bytes_of_special (.inl hLead), hLead]
      rfl
    rw [hBytes]
    have hLoop := (ih its hItems).1.lit (endOfText_eq_abort (by decide))
      fun a t => matchLoop_escape.trans (compare_chars a q)
    exact ⟨hLoop, hLoop.percent (by decide) rfl⟩
  | case4 c p _ hLead ih =>
    intro its h
    obtain ⟨its, hItems, rfl⟩ := map_eq_some_iff.mp h
    obtain ⟨hLoop, hPercent⟩ := ih its hItems
    rw [encode_cons, bytes_of_special (.inr (.inl hLead)), hLead]
    refine ⟨hLoop.any hPercent, fun text => ?_⟩
    obtain ⟨r, hRun, hAnswer⟩ := hPercent text
    refine ⟨r, ?_, hAnswer.any_congr matches_any_any⟩
    rw [← hRun, matchPercent_eq, matchPercent_eq]
    rfl
  | case5 c p _ _ hLead ih =>
    intro its h
    obtain ⟨its, hItems, rfl⟩ := map_eq_some_iff.mp h
    obtain ⟨hLoop, hPercent⟩ := ih its hItems
    rw [encode_cons, bytes_of_special (.inr (.inr hLead)), hLead]
    exact ⟨hLoop.one, hPercent.one⟩
  | case6 c p hEscape hPercent hUnderscore ih =>
    intro its h
    obtain ⟨its, hItems, rfl⟩ := map_eq_some_iff.mp h
    have hLoop := (ih its hItems).1.lit (endOfText_eq_abort hPercent)
      fun a t => (matchLoop_plain ⟨hEscape, hPercent, hUnderscore⟩).trans (compare_chars a c)
    exact ⟨hLoop, hLoop.percent ⟨hPercent, hUnderscore⟩ (if_neg hEscape)⟩

/-- **LIKE matches what it says**, in a single-byte encoding and in UTF-8: for a pattern that
does not end with an escape `MatchText` returns `LIKE_TRUE` exactly when the text matches,
and `LIKE_ABORT` only when no suffix of the text does. -/
theorem matchText_correct (text pattern : List (Character enc)) (its : List (Item enc))
    (hItems : items pattern = some its) :
    ∃ r, matchText enc (encode text) (encode pattern) = .ok r ∧
      (r = .likeTrue ↔ Matches its text) ∧
      (r = .likeAbort → ∀ s, s <:+ text → ¬ Matches its s) := by
  obtain ⟨r, hRun, hAnswer⟩ := (pattern_answers pattern its hItems).1 text
  rw [← matchText_eq] at hRun
  refine ⟨r, hRun, hAnswer.likeTrue_iff, ?_⟩
  intro hAbort
  rw [hAbort] at hAnswer
  exact hAnswer

/-- A UTF-8 character of two bytes. -/
def eAcute : Character .utf8 := ⟨0xC3, [0xA9], rfl, forall_mem_singleton.mpr rfl, rfl⟩

def ascii (b : UInt8) (h : Encoding.utf8.continues b = false ∧ 1 = Encoding.utf8.mblen b) :
    Character .utf8 := ⟨b, [], h.1, nil_continues, h.2⟩

/-- The text `%éaéb` under the pattern `\%_%b`: the escaped `%` is itself, the `_` is the `é`, and
the other `%` is `aé`. -/
theorem matchText_correct_utf8 :
    ∃ r, matchText .utf8 [0x25, 0xC3, 0xA9, 0x61, 0xC3, 0xA9, 0x62] [0x5C, 0x25, 0x5F, 0x25, 0x62] =
      .ok r ∧ r = .likeTrue := by
  let percent := ascii 0x25 (by decide)
  let b := ascii 0x62 (by decide)
  obtain ⟨r, hRun, hTrue, -⟩ := matchText_correct
    [percent, eAcute, ascii 0x61 (by decide), eAcute, b]
    [ascii 0x5C (by decide), percent, ascii 0x5F (by decide), percent, b]
    [.lit percent, .one, .any, .lit b] rfl
  exact ⟨r, hRun, hTrue.mpr (.lit _ (.one _ (.any [_, _] (.lit _ .nil))))⟩

end PgTuning.Utils.Like
