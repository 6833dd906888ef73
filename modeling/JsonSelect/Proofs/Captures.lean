import JsonSelect.Proofs.Patterns
import JsonSelect.Proofs.Suffixes

/-!
# Captured suffixes

The pattern of an index and the pattern of a range match the tokens that have such a suffix, and
their groups hold its parts (`Subset.occurs_indexPattern_iff`, `Subset.occurs_rangePattern_iff`). A
token has at most one suffix, so it does not matter which match an engine takes: with any lawful
engine tokens are read as what they spell, and a name with a written suffix reads as this name and
what the suffix writes (`Subset.parse_eq_iff_spells`).
-/

namespace JsonSelect.Subset

open Text Text.Pattern

/-- An optional minus sign and as many decimal digits as are allowed. -/
inductive IsNumber (digits : Quantifier) : List Char → Prop
  | bare {ds : List Char} (h : ∀ c ∈ ds, isDecimalDigit c) (hcount : digits.allows ds.length) :
      IsNumber digits ds
  | minus {ds : List Char} (h : ∀ c ∈ ds, isDecimalDigit c) (hcount : digits.allows ds.length) :
      IsNumber digits ('-' :: ds)

section Number

variable {text : List Char}

theorem isNumber_many_iff : IsNumber .many text ↔ IsEndpoint text := by
  constructor
  · intro h
    cases h with
    | bare h => exact .bare h
    | minus h => exact .minus h
  · intro h
    cases h with
    | bare h => exact .bare h rfl
    | minus h => exact .minus h rfl

theorem exists_mem_of_allows {ds : List Char} (h : ∀ c ∈ ds, isDecimalDigit c)
    (hcount : Quantifier.atLeastOnce.allows ds.length) : ∃ c ∈ ds, isDecimalDigit c := by
  obtain ⟨c, hc⟩ := List.exists_mem_of_length_pos (of_decide_eq_true hcount)
  exact ⟨c, hc, h c hc⟩

theorem allows_of_mem {ds : List Char} {c : Char} (hc : c ∈ ds) :
    Quantifier.atLeastOnce.allows ds.length :=
  decide_eq_true (List.length_pos_of_mem hc)

theorem isNumber_atLeastOnce_iff :
    IsNumber .atLeastOnce text ↔ IsEndpoint text ∧ ∃ c ∈ text, isDecimalDigit c := by
  constructor
  · intro h
    cases h with
    | bare h hcount => exact ⟨.bare h, exists_mem_of_allows h hcount⟩
    | minus h hcount =>
      obtain ⟨c, hc, hd⟩ := exists_mem_of_allows h hcount
      exact ⟨.minus h, c, .tail _ hc, hd⟩
  · rintro ⟨h, c, hc, hd⟩
    cases h with
    | bare h => exact .bare h (allows_of_mem hc)
    | minus h =>
      -- The minus sign is no digit, so the digit is behind it.
      rcases List.mem_cons.1 hc with rfl | hc
      · exact absurd hd (by decide)
      · exact .minus h (allows_of_mem hc)

end Number

section Matches

variable {flag : Bool} {before matched behind : List Char} {groups : Groups}

theorem matches_number_iff {digits : Quantifier} :
    Matches flag (.chars (.literal '-') .optional <| .chars .digit digits .done) before matched
      behind groups ↔ groups = [] ∧ IsNumber digits matched := by
  rw [matches_chars_iff]
  constructor
  · rintro ⟨sign, matched', rfl, hcount, hsign, h⟩
    obtain ⟨ds, _, rfl, hdigits, hds, h⟩ := matches_chars_iff.1 h
    obtain ⟨rfl, rfl⟩ := matches_done_iff.1 h
    rw [List.append_nil]
    refine ⟨rfl, ?_⟩
    cases sign with
    | nil => exact .bare hds hdigits
    | cons c sign =>
      obtain rfl : c = '-' := beq_iff_eq.1 (hsign c (.head _))
      obtain rfl : sign = [] := List.eq_nil_of_length_eq_zero <|
        Nat.le_zero.1 (Nat.le_of_succ_le_succ (of_decide_eq_true hcount))
      exact .minus hds hdigits
  · rintro ⟨rfl, h⟩
    have hdigits : ∀ {ds sign : List Char}, (∀ c ∈ ds, isDecimalDigit c) → digits.allows ds.length →
        Matches flag (.chars .digit digits .done) (before ++ sign) ds behind [] :=
      fun h hcount => matches_chars_iff.2
        ⟨_, [], (List.append_nil _).symm, hcount, h, matches_done_iff.2 ⟨rfl, rfl⟩⟩
    cases h with
    | bare h hcount => exact ⟨[], _, rfl, rfl, nofun, hdigits h hcount⟩
    | @minus ds h hcount =>
      refine ⟨['-'], ds, rfl, rfl, fun c hc => ?_, hdigits h hcount⟩
      exact beq_iff_eq.2 (List.mem_singleton.1 hc)

theorem matches_endpointPattern_iff {name : String} {digits : Quantifier} {rest : Pattern} :
    Matches flag (endpointPattern name digits rest) before matched behind groups ↔
      ∃ text content matched' groups', matched = content ++ matched' ∧ Pads text content
        ∧ IsNumber digits text ∧ groups = (name, String.ofList text) :: groups'
        ∧ Matches flag rest (before ++ content) matched' behind groups' := by
  unfold endpointPattern
  rw [matches_chars_iff]
  constructor
  · rintro ⟨front, _, rfl, -, hfront, h⟩
    obtain ⟨text, _, held, groups', rfl, rfl, hinner, h⟩ := matches_group_iff.1 h
    obtain ⟨back, matched', rfl, -, hback, h⟩ := matches_chars_iff.1 h
    obtain ⟨rfl, htext⟩ := matches_number_iff.1 hinner
    refine ⟨text, front ++ text ++ back, matched', groups', ?_, .mk hfront hback, htext, rfl, ?_⟩
    · rw [List.append_assoc, List.append_assoc]
    · rwa [← List.append_assoc, ← List.append_assoc]
  · rintro ⟨text, _, matched', groups', rfl, ⟨hfront, hback⟩, htext, rfl, h⟩
    refine ⟨_, _, (List.append_assoc _ _ _).trans (List.append_assoc _ _ _), rfl, hfront, ?_⟩
    refine matches_group_iff.2
      ⟨text, _, [], groups', rfl, rfl, matches_number_iff.2 ⟨rfl, htext⟩, ?_⟩
    refine matches_chars_iff.2 ⟨_, matched', rfl, rfl, hback, ?_⟩
    rwa [← List.append_assoc, ← List.append_assoc] at h

/-- What every suffix ends with. -/
theorem matches_closing_iff :
    Matches flag (.chars (.literal ']') .once <| .atEnd .done) before matched behind groups ↔
      matched = [']'] ∧ behind = [] ∧ groups = [] := by
  rw [matches_literal_iff]
  constructor
  · rintro ⟨_, rfl, h⟩
    obtain ⟨rfl, rfl, h⟩ := matches_atEnd_iff.1 h
    exact ⟨rfl, rfl, (matches_done_iff.1 h).2⟩
  · rintro ⟨rfl, rfl, rfl⟩
    exact ⟨[], rfl, matches_atEnd_iff.2 ⟨rfl, rfl, matches_done_iff.2 ⟨rfl, rfl⟩⟩⟩

end Matches

section Occurs

variable {token : String} {groups : Groups}

theorem occurs_bracketedPattern_iff {content : Pattern → Pattern} :
    (bracketedPattern content).Occurs token groups ↔ ∃ name matched behind groups',
      token.toList = name ++ '[' :: (matched ++ behind)
        ∧ groups = ("name", String.ofList name) :: groups'
        ∧ Matches true (content <| .chars (.literal ']') .once <| .atEnd .done) (name ++ ['['])
          matched behind groups' := by
  constructor
  · rintro ⟨_, _, behind, htoken, h⟩
    obtain ⟨rfl, h⟩ := matches_atStart_iff.1 h
    obtain ⟨name, _, held, groups', rfl, rfl, hname, hrest⟩ :=
      matches_group_iff.1 (matches_dotAll_iff.1 h)
    obtain ⟨_, _, -, -, -, hdone⟩ := matches_chars_iff.1 hname
    obtain ⟨-, rfl⟩ := matches_done_iff.1 hdone
    obtain ⟨matched, rfl, hcontent⟩ := matches_literal_iff.1 hrest
    refine ⟨name, matched, behind, groups', ?_, rfl, hcontent⟩
    rw [htoken, List.nil_append, List.append_assoc, List.cons_append]
  · rintro ⟨name, matched, behind, groups', htoken, rfl, h⟩
    refine ⟨[], name ++ '[' :: matched, behind, ?_, ?_⟩
    · rw [htoken, List.nil_append, List.append_assoc, List.cons_append]
    · have hname : Matches true (.chars .any .many .done) [] name ('[' :: matched ++ behind) [] :=
        matches_chars_iff.2 ⟨name, [], (List.append_nil name).symm, rfl, fun _ _ => rfl,
          matches_done_iff.2 ⟨rfl, rfl⟩⟩
      refine matches_atStart_iff.2 ⟨rfl, matches_dotAll_iff.2 (matches_group_iff.2 ?_)⟩
      exact ⟨name, _, [], groups', rfl, rfl, hname, matches_literal_iff.2 ⟨matched, rfl, h⟩⟩

theorem occurs_indexPattern_iff : indexPattern.Occurs token groups ↔
    ∃ name content text, token.toList = name ++ '[' :: (content ++ [']']) ∧ Pads text content
      ∧ IsNumber .atLeastOnce text
      ∧ groups = [("name", String.ofList name), ("index", String.ofList text)] := by
  rw [indexPattern, occurs_bracketedPattern_iff]
  constructor
  · rintro ⟨name, _, _, _, htoken, rfl, h⟩
    obtain ⟨text, content, _, _, rfl, hpads, htext, rfl, hclosing⟩ :=
      matches_endpointPattern_iff.1 h
    obtain ⟨rfl, rfl, rfl⟩ := matches_closing_iff.1 hclosing
    rw [List.append_nil] at htoken
    exact ⟨name, content, text, htoken, hpads, htext, rfl⟩
  · rintro ⟨name, content, text, htoken, hpads, htext, rfl⟩
    refine ⟨name, content ++ [']'], [], _, ?_, rfl, matches_endpointPattern_iff.2 ?_⟩
    · rw [htoken, List.append_nil]
    · exact ⟨text, content, [']'], [], rfl, hpads, htext, rfl,
        matches_closing_iff.2 ⟨rfl, rfl, rfl⟩⟩

theorem occurs_rangePattern_iff : rangePattern.Occurs token groups ↔
    ∃ name front back start stop, token.toList = name ++ '[' :: (front ++ ':' :: back ++ [']'])
      ∧ Pads start front ∧ IsNumber .many start ∧ Pads stop back ∧ IsNumber .many stop
      ∧ groups = [("name", String.ofList name), ("start", String.ofList start),
        ("end", String.ofList stop)] := by
  rw [rangePattern, occurs_bracketedPattern_iff]
  constructor
  · rintro ⟨name, _, _, _, htoken, rfl, h⟩
    obtain ⟨start, front, _, _, rfl, hfront, hstart, rfl, hcolon⟩ :=
      matches_endpointPattern_iff.1 h
    obtain ⟨_, rfl, hsecond⟩ := matches_literal_iff.1 hcolon
    obtain ⟨stop, back, _, _, rfl, hback, hstop, rfl, hclosing⟩ :=
      matches_endpointPattern_iff.1 hsecond
    obtain ⟨rfl, rfl, rfl⟩ := matches_closing_iff.1 hclosing
    refine ⟨name, front, back, start, stop, ?_, hfront, hstart, hback, hstop, rfl⟩
    rw [htoken, List.append_nil, List.append_assoc, List.cons_append]
  · rintro ⟨name, front, back, start, stop, htoken, hfront, hstart, hback, hstop, rfl⟩
    refine ⟨name, front ++ ':' :: (back ++ [']']), [], _, ?_, rfl,
      matches_endpointPattern_iff.2 ⟨start, front, _, _, rfl, hfront, hstart, rfl, ?_⟩⟩
    · rw [htoken, List.append_nil, List.append_assoc, List.cons_append]
    · refine matches_literal_iff.2 ⟨_, rfl, matches_endpointPattern_iff.2 ?_⟩
      exact ⟨stop, back, [']'], [], rfl, hback, hstop, rfl, matches_closing_iff.2 ⟨rfl, rfl, rfl⟩⟩

example : Engine.greedy.captures? rangePattern "a[1][-2: ]" =
    some [("name", "a[1]"), ("start", "-2"), ("end", "")] := by decide +kernel

/-- A token with a suffix is matched by one of the patterns. -/
theorem exists_occurs_of_suffixed {name start stop : List Char}
    (h : Suffixed token.toList name start stop) :
    (∃ groups, indexPattern.Occurs token groups) ∨ ∃ groups, rangePattern.Occurs token groups := by
  obtain ⟨_, htoken, h⟩ := h
  cases h with
  | index hpads htext hdigit =>
    exact .inl ⟨_, occurs_indexPattern_iff.2
      ⟨name, _, _, htoken, hpads, isNumber_atLeastOnce_iff.2 ⟨htext, hdigit⟩, rfl⟩⟩
  | range hfront hstart hback hstop =>
    exact .inr ⟨_, occurs_rangePattern_iff.2 ⟨name, _, _, _, _, htoken, hfront,
      isNumber_many_iff.2 hstart, hback, isNumber_many_iff.2 hstop, rfl⟩⟩

end Occurs

section Reading

variable {engine : Engine} {token : String}

theorem trim_ofList (cs : List Char) : trim (String.ofList cs) = String.ofList (strip cs) := by
  rw [trim, String.toList_ofList]

theorem parse_of_index {groups : Groups}
    (hcaptures : engine.captures? indexPattern token = some groups)
    (h : indexPattern.Occurs token groups) : parse engine token = ofToken? token := by
  obtain ⟨name, content, text, htoken, hpads, htext, rfl⟩ := occurs_indexPattern_iff.1 h
  obtain ⟨htext, hdigit⟩ := isNumber_atLeastOnce_iff.1 htext
  rw [ofToken?_of_suffixed ⟨content, htoken, .index hpads htext hdigit⟩, parse, hcaptures]
  dsimp only
  rw [Groups.get_cons_self, Groups.get_cons_of_ne _ (by decide), Groups.get_cons_self, trim_ofList,
    String.toList_ofList]
  cases readEndpoint token text <;> rfl

theorem parse_of_range {groups : Groups} (hindex : engine.captures? indexPattern token = none)
    (hcaptures : engine.captures? rangePattern token = some groups)
    (h : rangePattern.Occurs token groups) : parse engine token = ofToken? token := by
  obtain ⟨name, front, back, start, stop, htoken, hfront, hstart, hback, hstop, rfl⟩ :=
    occurs_rangePattern_iff.1 h
  have hsuffixed : Suffixed token.toList name start stop :=
    ⟨front ++ ':' :: back, htoken,
      .range hfront (isNumber_many_iff.1 hstart) hback (isNumber_many_iff.1 hstop)⟩
  rw [ofToken?_of_suffixed hsuffixed, parse, hindex]
  dsimp only
  rw [hcaptures]
  simp [trim_ofList]

/-- The two patterns in turn find the suffix that the brackets and the colon delimit. -/
theorem parse_eq_ofToken? (h : engine.Lawful) (token : String) :
    parse engine token = ofToken? token := by
  cases hindex : engine.captures? indexPattern token with
  | some groups => exact parse_of_index hindex (h.occurs hindex)
  | none =>
    cases hrange : engine.captures? rangePattern token with
    | some groups => exact parse_of_range hindex hrange (h.occurs hrange)
    | none =>
      have hplain : ∀ name start stop, ¬ Suffixed token.toList name start stop := by
        intro name start stop hsuffixed
        obtain ⟨groups, hg⟩ | ⟨groups, hg⟩ := exists_occurs_of_suffixed hsuffixed
        · exact h.not_occurs hindex groups hg
        · exact h.not_occurs hrange groups hg
      rw [ofToken?_of_not_suffixed hplain, parse, hindex]
      dsimp only
      rw [hrange]
      rfl

end Reading

/-- Tokens are read as what they spell, the suffix standing behind the last opening bracket, and a
name with a suffix that is written for it gives back both. -/
theorem parse_eq_iff_spells {engine : Engine} (h : engine.Lawful) :
    (∀ token, parse engine token = ofToken? token)
      ∧ (∀ token r, parse engine token = r ↔ Spells token r)
      ∧ (∀ {content start stop : List Char}, Encloses content start stop → '[' ∉ content)
      ∧ (∀ {name s : String} {n : Int}, Unpadded name → Writes s (some n) →
        parse engine (name ++ "[" ++ s ++ "]") = .ok (some (name, single n)))
      ∧ ∀ {name s t : String} {a b : Option Int}, Unpadded name → Writes s a → Writes t b →
        parse engine (name ++ "[" ++ (s ++ ":" ++ t) ++ "]") =
          .ok (some (name, ofPositions a b)) := by
  have hparse := parse_eq_ofToken? h
  refine ⟨hparse, fun token r => ?_, Encloses.not_mem, fun hname hs => ?_, fun hname hs ht => ?_⟩
  · rw [hparse]
    exact ⟨fun h => h ▸ spells_ofToken? token, Spells.eq_ofToken?⟩
  · rw [hparse]
    exact (spells_index hname hs).eq_ofToken?
  · rw [hparse]
    exact (spells_range hname hs ht).eq_ofToken?

/-- Brackets, a dot and a line break in a name, digits of another script, and a third endpoint. -/
theorem parse_eq_iff_spells_bracketed :
    ∃ name s t, name = "a.b[0]\n[c" ∧ s = " -9223372036854775808" ∧ t = "\t" ∧ Unpadded name
      ∧ Writes s (some (-9223372036854775808)) ∧ Writes t none
      ∧ parse .greedy (name ++ "[" ++ s ++ "]") =
        .ok (some (name, single (-9223372036854775808)))
      ∧ parse .greedy (name ++ "[" ++ (s ++ ":" ++ t) ++ "]") =
        .ok (some (name, ofPositions (some (-9223372036854775808)) none))
      ∧ Spells "a[\u0663]" (.error (.invalidIndex "a[\u0663]"))
      ∧ Spells "a[1:2:3]" (.ok none)
      ∧ Encloses ['2', ':'] ['2'] [] ∧ '[' ∉ ['2', ':'] := by
  obtain ⟨hparse, hspells, hbracket, hindex, hrange⟩ := parse_eq_iff_spells Engine.greedy_lawful
  have hname : Unpadded "a.b[0]\n[c" :=
    ⟨by simpa using (by decide : isBlank 'a' = false),
      by simpa using (by decide : isBlank 'c' = false)⟩
  have hleast : Writes " -9223372036854775808" (some (-9223372036854775808)) :=
    (by decide +kernel : " " ++ toString (-9223372036854775808 : Int) ++ "" =
      " -9223372036854775808") ▸ .decimal (by decide) (by decide) (by decide)
  have hopen : Writes "\t" none := .blank (by decide)
  have htwo : Encloses ['2', ':'] ['2'] [] :=
    endpoints?_eq_some.1 (by decide +kernel : endpoints? ['2', ':'] = some (['2'], []))
  have hscript : ofToken? "a[\u0663]" = .error (.invalidIndex "a[\u0663]") := by decide +kernel
  have hthird : ofToken? "a[1:2:3]" = .ok none := by decide +kernel
  exact ⟨_, _, _, rfl, rfl, rfl, hname, hleast, hopen, hindex hname hleast,
    hrange hname hleast hopen, (hspells _ _).1 ((hparse _).trans hscript),
    (hspells _ _).1 ((hparse _).trans hthird), htwo, hbracket htwo⟩

end JsonSelect.Subset
