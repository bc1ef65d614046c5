import PgTuning.Utils.Like

/-!
# LIKE with an escape string

`do_like_escape` of `like_match.c` rewrites a pattern written with another escape character,
or with none, to the backslash convention that `MatchText` understands. One bit of state
says that the last character was the escape.
-/

namespace PgTuning.Utils.Like

open List Bool Option

inductive EscapeError
  /-- invalid escape string -/
  | invalidEscapeString
  deriving DecidableEq

theorem Encoding.mblen_pos (enc : Encoding) (b : UInt8) : 0 < enc.mblen b := by
  fun_cases Encoding.mblen enc b <;> decide

/-- `CHAREQ`: the first characters are equal (`wchareq`, and bytes in a single-byte
encoding). -/
def chareq (enc : Encoding) : List UInt8 → List UInt8 → Bool
  | a :: p, b :: e =>
    a == b && enc.mblen a == enc.mblen b && (a :: p).take (enc.mblen a) == (b :: e).take (enc.mblen a)
  | _, _ => false

/-- The loop for an empty escape string. -/
def doubleBackslashes (enc : Encoding) : List UInt8 → List UInt8
  | [] => []
  | b :: p =>
    (if b = backslash then [backslash] else []) ++ (b :: p).take (enc.mblen b) ++
      doubleBackslashes enc ((b :: p).drop (enc.mblen b))
termination_by p => p.length
decreasing_by
  have := enc.mblen_pos b
  simp only [length_drop, length_cons]
  omega

/-- The loop for an escape character `e` that is not the backslash. -/
def replaceEscapes (enc : Encoding) (e : List UInt8) (afterescape : Bool) :
    List UInt8 → List UInt8
  | [] => []
  | b :: p =>
    if chareq enc (b :: p) e && !afterescape then
      backslash :: replaceEscapes enc e true ((b :: p).drop (enc.mblen b))
    else if b = backslash then
      backslash :: (if afterescape then [] else [backslash]) ++
        replaceEscapes enc e false ((b :: p).drop (enc.mblen b))
    else
      (b :: p).take (enc.mblen b) ++
        replaceEscapes enc e false ((b :: p).drop (enc.mblen b))
termination_by p => p.length
decreasing_by
  all_goals
    have := enc.mblen_pos b
    simp only [length_drop, length_cons]
    omega

def doLikeEscape (enc : Encoding) (pat : List UInt8) :
    List UInt8 → Except EscapeError (List UInt8)
  | [] => .ok (doubleBackslashes enc pat)
  | b :: e =>
    if (b :: e).length ≠ enc.mblen b then .error .invalidEscapeString
    else if b = backslash then .ok pat
    else .ok (replaceEscapes enc (b :: e) false pat)

/-! ## Patterns with any escape character -/

variable {enc : Encoding}

/-- What a character stands for when it is not escaped. -/
def itemOf (c : Character enc) : Item enc :=
  if c.lead = percent then .any else if c.lead = underscore then .one else .lit c

/-- The places of a pattern with the escape character `esc`, or without one; `none` when it
ends with an unpaired escape. -/
def itemsWith (esc : Option (Character enc)) :
    List (Character enc) → Option (List (Item enc))
  | [] => some []
  | c :: p =>
    if some c = esc then
      match p with
      | [] => none
      | q :: p => (itemsWith esc p).map (.lit q :: ·)
    else (itemsWith esc p).map (itemOf c :: ·)

theorem items_plain {c : Character enc} {p : List (Character enc)} (h : c.lead ≠ backslash) :
    items (c :: p) = (items p).map (itemOf c :: ·) := by
  rw [items.eq_def]
  dsimp only
  rw [if_neg h, itemOf]
  split_ifs <;> rfl

/-- The backslash as a character. -/
def escapeChar : (enc : Encoding) → Character enc
  | .singleByte => ⟨backslash, [], rfl, nil_continues, rfl⟩
  | .utf8 => ⟨backslash, [], rfl, nil_continues, rfl⟩

theorem escapeChar_bytes : (escapeChar enc).bytes = [backslash] := by
  cases enc <;> rfl

theorem lead_eq_backslash {c : Character enc} : c.lead = backslash ↔ c = escapeChar enc := by
  constructor
  · intro h
    have hBytes : c.bytes = (escapeChar enc).bytes := by
      rw [bytes_of_special (.inl h), h, escapeChar_bytes]
    exact Character.ext (cons.inj hBytes).1 (cons.inj hBytes).2
  · intro h
    exact (cons.inj ((congrArg Character.bytes h).trans escapeChar_bytes)).1

/-- What `MatchText` reads are the places for the backslash. -/
theorem items_eq (p : List (Character enc)) : items p = itemsWith (some (escapeChar enc)) p := by
  fun_induction itemsWith (some (escapeChar enc)) p with
  | case1 => rfl
  | case2 c h => rw [items, if_pos (lead_eq_backslash.mpr (some.inj h))]
  | case3 c h q p ih => rw [items, if_pos (lead_eq_backslash.mpr (some.inj h)), ih]
  | case4 c p h ih =>
    rw [items_plain fun hLead => h (congrArg some (lead_eq_backslash.mp hLead)), ih]

/-- The pattern rewritten for the backslash, character by character. -/
def rewritten (esc : Option (Character enc)) : List (Character enc) → List (Character enc)
  | [] => []
  | c :: p =>
    if some c = esc then
      match p with
      | [] => [escapeChar enc]
      | q :: p => escapeChar enc :: q :: rewritten esc p
    else (if c.lead = backslash then [escapeChar enc] else []) ++ c :: rewritten esc p

theorem rewritten_plain {esc : Option (Character enc)} {c : Character enc}
    {p : List (Character enc)} (h : some c ≠ esc) : rewritten esc (c :: p) =
      (if c.lead = backslash then [escapeChar enc] else []) ++ c :: rewritten esc p := by
  rw [rewritten.eq_def]
  exact if_neg h

/-- **The rewriting keeps what the pattern says.** -/
theorem items_rewritten (esc : Option (Character enc)) (p : List (Character enc)) :
    items (rewritten esc p) = itemsWith esc p := by
  have hEscape : (escapeChar enc).lead = backslash := lead_eq_backslash.mpr rfl
  fun_induction itemsWith esc p with
  | case1 => rfl
  | case2 c h => rw [rewritten, if_pos h, items, if_pos hEscape]
  | case3 c h q p ih => rw [rewritten, if_pos h, items, if_pos hEscape, ih]
  | case4 c p h ih =>
    rw [rewritten_plain h]
    split_ifs with hLead
    · have hItem : itemOf c = .lit c := by
        rw [itemOf, hLead]
        rfl
      rw [singleton_append, items, if_pos hEscape, ih, hItem]
    · rw [nil_append, items_plain hLead, ih]

section Bytes

variable {e : Character enc} (c : Character enc) (p : List (Character enc))

theorem encode_eq : encode (c :: p) = c.lead :: (c.rest ++ encode p) := rfl

/-- `CopyAdvChar` copies a whole character. -/
theorem take_encode : (c.lead :: (c.rest ++ encode p)).take (enc.mblen c.lead) = c.bytes :=
  take_left' (show c.bytes.length = _ from c.length_rest)

theorem drop_encode : (c.lead :: (c.rest ++ encode p)).drop (enc.mblen c.lead) = encode p :=
  drop_left' (show c.bytes.length = _ from c.length_rest)

theorem chareq_encode : chareq enc (c.lead :: (c.rest ++ encode p)) e.bytes ↔ c = e := by
  rw [Character.bytes, chareq, take_encode, and_eq_true, and_eq_true]
  simp only [beq_iff_eq]
  constructor
  · rintro ⟨⟨hLead, -⟩, hBytes⟩
    rw [hLead, take_of_length_le e.length_rest.le] at hBytes
    exact Character.ext hLead (cons.inj hBytes).2
  · rintro rfl
    exact ⟨⟨rfl, rfl⟩, (take_of_length_le c.length_rest.le).symm⟩

theorem encode_doubled :
    encode ((if c.lead = backslash then [escapeChar enc] else []) ++ c :: p) =
      (if c.lead = backslash then [backslash] else []) ++ c.bytes ++ encode p := by
  split_ifs
  · rw [singleton_append, encode_cons, encode_cons, escapeChar_bytes, append_assoc]
  · rfl

theorem doubleBackslashes_encode :
    doubleBackslashes enc (encode p) = encode (rewritten none p) := by
  induction p with
  | nil => exact doubleBackslashes.eq_1 enc
  | cons c p ih =>
    rw [encode_eq, doubleBackslashes, take_encode, drop_encode, ih, rewritten_plain (by simp),
      encode_doubled]

/-- After the escape the next character is copied, a backslash too. -/
theorem replaceEscapes_after :
    replaceEscapes enc e.bytes true (encode (c :: p)) =
      c.bytes ++ replaceEscapes enc e.bytes false (encode p) := by
  rw [encode_eq, replaceEscapes, take_encode, drop_encode]
  simp only [Bool.not_true, Bool.and_false, false_eq_true, if_false]
  split_ifs with hLead
  · rw [bytes_of_special (.inl hLead), hLead]
  · rfl

theorem replaceEscapes_encode :
    replaceEscapes enc e.bytes false (encode p) = encode (rewritten (some e) p) := by
  have hCons : ∀ (c : Character enc) (p : List (Character enc)),
      replaceEscapes enc e.bytes false (encode (c :: p)) =
        if some c = some e then backslash :: replaceEscapes enc e.bytes true (encode p)
        else (if c.lead = backslash then [backslash] else []) ++ c.bytes ++
          replaceEscapes enc e.bytes false (encode p) := by
    intro c p
    rw [encode_eq, replaceEscapes, take_encode, drop_encode]
    simp only [Bool.not_false, Bool.and_true, chareq_encode, some.injEq,
      false_eq_true, if_false]
    split_ifs with hEq hLead
    · rfl
    · rw [bytes_of_special (.inl hLead), hLead]
      rfl
    · rfl
  fun_induction rewritten (some e) p with
  | case1 => exact replaceEscapes.eq_1 enc e.bytes false
  | case2 c h =>
    rw [hCons, if_pos h, encode_cons, escapeChar_bytes]
    exact congrArg _ (replaceEscapes.eq_1 enc e.bytes true)
  | case3 c h q p ih =>
    rw [hCons, if_pos h, replaceEscapes_after, ih, encode_cons, escapeChar_bytes]
    rfl
  | case4 c p h ih => rw [hCons, if_neg h, ih, encode_doubled]

/-- An escape string of at most one character is accepted. -/
theorem doLikeEscape_encode (esc : Option (Character enc)) :
    ∃ p', doLikeEscape enc (encode p) (encode esc.toList) = .ok (encode p') ∧
      items p' = itemsWith esc p := by
  cases esc with
  | none => exact ⟨_, congrArg _ (doubleBackslashes_encode p), items_rewritten none p⟩
  | some e =>
    have hBytes : encode (some e).toList = e.bytes := append_nil _
    have hOne : (e.lead :: e.rest).length = enc.mblen e.lead := e.length_rest
    rw [hBytes, Character.bytes, doLikeEscape, if_neg (not_not.mpr hOne)]
    split_ifs with hLead
    · refine ⟨p, rfl, ?_⟩
      rw [lead_eq_backslash.mp hLead]
      exact items_eq p
    · exact ⟨_, congrArg _ (replaceEscapes_encode p), items_rewritten (some e) p⟩

end Bytes

/-- **LIKE ... ESCAPE matches what it says**: for a pattern that does not end with an unpaired
escape, `MatchText` on the rewritten pattern returns `LIKE_TRUE` exactly when the text matches
the pattern read with this escape character, or with none. -/
theorem doLikeEscape_correct (text pattern : List (Character enc)) (esc : Option (Character enc))
    (its : List (Item enc)) (hItems : itemsWith esc pattern = some its) :
    ∃ p r, doLikeEscape enc (encode pattern) (encode esc.toList) = .ok p ∧
      matchText enc (encode text) p = .ok r ∧ (r = .likeTrue ↔ Matches its text) := by
  obtain ⟨p', hRun, hPlaces⟩ := doLikeEscape_encode pattern esc
  obtain ⟨r, hMatch, hAnswer⟩ := (pattern_answers p' its (hPlaces.trans hItems)).1 text
  exact ⟨_, r, hRun, matchText_eq.trans hMatch, hAnswer.likeTrue_iff⟩

/-- `%` as the escape character: the pattern `%_` is the text `_`. -/
theorem doLikeEscape_correct_percent :
    ∃ p r, doLikeEscape .utf8 [0x25, 0x5F] [0x25] = .ok p ∧
      matchText .utf8 [0x5F] p = .ok r ∧ r = .likeTrue := by
  obtain ⟨p, r, hRun, hMatch, hTrue⟩ := doLikeEscape_correct [ascii 0x5F (by decide)]
    [ascii 0x25 (by decide), ascii 0x5F (by decide)] (some (ascii 0x25 (by decide)))
    [.lit (ascii 0x5F (by decide))] rfl
  exact ⟨p, r, hRun, hMatch, hTrue.mpr (.lit _ .nil)⟩

end PgTuning.Utils.Like
