import JsonSelect.Proofs.Numerals
import JsonSelect.Proofs.Steps

/-!
# Suffixes of tokens

A token has a suffix if brackets at its end hold an index, or two endpoints around a colon, with
blanks around each (`Subset.Suffixed`). The name in front may hold brackets too, but a suffix holds
no opening one; so it stands behind the last of the token, and there is only one
(`Subset.bracketed?_eq_some`, `Subset.endpoints?_eq_some`).

A token with a suffix is faulted for an endpoint that is no integer of signed 64 bits and writes a
subset otherwise, a token without one is a name (`Subset.Spells`). That is how tokens are read
(`Subset.spells_ofToken?`, `Subset.Spells.eq_ofToken?`).
-/

namespace JsonSelect.Subset

open Text

/-- An optional minus sign and decimal digits of any script. -/
inductive IsEndpoint : List Char → Prop
  | bare {ds : List Char} (h : ∀ c ∈ ds, isDecimalDigit c) : IsEndpoint ds
  | minus {ds : List Char} (h : ∀ c ∈ ds, isDecimalDigit c) : IsEndpoint ('-' :: ds)

/-- A text with blanks around it. -/
inductive Pads (text : List Char) : List Char → Prop
  | mk {before behind : List Char} (hbefore : ∀ c ∈ before, isBlank c)
      (hbehind : ∀ c ∈ behind, isBlank c) : Pads text (before ++ text ++ behind)

/-- What the brackets of a suffix hold, with the texts of its endpoints. An index is both. -/
inductive Encloses : List Char → List Char → List Char → Prop
  | index {content text : List Char} (h : Pads text content) (htext : IsEndpoint text)
      (hdigit : ∃ c ∈ text, isDecimalDigit c) : Encloses content text text
  | range {front back start stop : List Char} (hfront : Pads start front)
      (hstart : IsEndpoint start) (hback : Pads stop back) (hstop : IsEndpoint stop) :
      Encloses (front ++ ':' :: back) start stop

/-- The token is a name with a suffix. -/
def Suffixed (token name start stop : List Char) : Prop :=
  ∃ content, token = name ++ '[' :: (content ++ [']']) ∧ Encloses content start stop

/-- The position that the text of an endpoint writes; no text is an open end. -/
inductive Stands : List Char → Option Int → Prop
  | nil : Stands [] none
  | integer {text : List Char} {n : Int} (h : IsInteger text n) (hn : inSigned64 n) :
      Stands text (some n)

/-- A text that is no integer of signed 64 bits. -/
def Unreadable (text : List Char) : Prop := text ≠ [] ∧ ∀ n, IsInteger text n → ¬ inSigned64 n

/-- What a token is read as. -/
inductive Spells (token : String) : Except Fault (Option (String × Subset)) → Prop
  | plain (h : ∀ name start stop, ¬ Suffixed token.toList name start stop) :
      Spells token (.ok none)
  | unreadable {name start stop : List Char} (h : Suffixed token.toList name start stop)
      (hends : Unreadable start ∨ Unreadable stop) :
      Spells token (.error (.invalidIndex token))
  | subset {name start stop : List Char} {a b : Option Int}
      (h : Suffixed token.toList name start stop) (ha : Stands start a) (hb : Stands stop b) :
      Spells token (.ok (some (String.ofList (strip name), ofPositions a b)))

section Endpoint

variable {cs text content : List Char}

theorem IsEndpoint.isDecimalDigit_or (h : IsEndpoint text) {c : Char} (hc : c ∈ text) :
    isDecimalDigit c ∨ c = '-' := by
  cases h with
  | bare h => exact .inl (h c hc)
  | minus h =>
    rcases List.mem_cons.1 hc with rfl | hc
    · exact .inr rfl
    · exact .inl (h c hc)

theorem IsEndpoint.isBlank_eq_false (h : IsEndpoint text) : ∀ c ∈ text, isBlank c = false := by
  intro c hc
  rcases h.isDecimalDigit_or hc with hd | rfl
  · exact isBlank_of_isDecimalDigit hd
  · rfl

theorem IsEndpoint.strip_of_pads (h : IsEndpoint text) (hp : Pads text cs) : strip cs = text := by
  obtain ⟨hbefore, hbehind⟩ := hp
  rw [strip_pad hbefore hbehind]
  exact strip_eq_self (fun c hc => h.isBlank_eq_false c (List.mem_of_mem_head? hc))
    fun c hc => h.isBlank_eq_false c (List.mem_of_getLast? hc)

theorem pads_strip (cs : List Char) : Pads (strip cs) cs := by
  obtain ⟨before, behind, hbefore, hbehind, hcs⟩ := exists_strip cs
  have hpads : Pads (strip cs) (before ++ strip cs ++ behind) := .mk hbefore hbehind
  rwa [← hcs] at hpads

/-- The digits are what follows the minus sign, if there is one. -/
theorem isEndpoint_iff : IsEndpoint text ↔
    (match text with | '-' :: ds => ds | ds => ds).all isDecimalDigit := by
  rw [List.all_eq_true]
  constructor
  · intro h
    cases h with
    | bare h =>
      split
      · exact fun c hc => h c (List.mem_cons_of_mem _ hc)
      · exact h
    | minus h => exact h
  · intro h
    split at h
    · exact .minus h
    · exact .bare h

theorem endpoint?_eq_some : endpoint? cs = some text ↔ Pads text cs ∧ IsEndpoint text := by
  have hunfold : endpoint? cs = if (match strip cs with | '-' :: ds => ds | ds => ds).all
    isDecimalDigit then some (strip cs) else none := rfl
  rw [hunfold]
  constructor
  · intro h
    by_cases hdigits : IsEndpoint (strip cs)
    · rw [if_pos (isEndpoint_iff.1 hdigits)] at h
      obtain rfl := Option.some.inj h
      exact ⟨pads_strip cs, hdigits⟩
    · rw [if_neg (mt isEndpoint_iff.2 hdigits)] at h
      exact absurd h nofun
  · intro ⟨hp, h⟩
    rw [h.strip_of_pads hp, if_pos (isEndpoint_iff.1 h)]

theorem Pads.not_mem {a : Char} (h : Pads text cs) (htext : IsEndpoint text)
    (ha : isBlank a = false ∧ isDecimalDigit a = false ∧ a ≠ '-') : a ∉ cs := by
  obtain ⟨hblank, hdigit, hminus⟩ := ha
  obtain ⟨hbefore, hbehind⟩ := h
  rw [List.mem_append, List.mem_append]
  rintro ((hc | hc) | hc)
  · exact Bool.false_ne_true (hblank.symm.trans (hbefore a hc))
  · rcases htext.isDecimalDigit_or hc with hd | rfl
    · exact Bool.false_ne_true (hdigit.symm.trans hd)
    · exact hminus rfl
  · exact Bool.false_ne_true (hblank.symm.trans (hbehind a hc))

end Endpoint

section Content

variable {content start stop : List Char}

theorem endpoints?_of_not_mem (h : ':' ∉ content) :
    endpoints? content = (endpoint? content).bind fun index =>
      if index.any isDecimalDigit then some (index, index) else none := by
  unfold endpoints?
  rw [dropWhile_ne_eq_nil h]
  rfl

theorem endpoints?_append {front back : List Char} (h : ':' ∉ front) :
    endpoints? (front ++ ':' :: back) = (endpoint? front).bind fun start =>
      (endpoint? back).bind fun stop => some (start, stop) := by
  unfold endpoints?
  rw [dropWhile_ne_append h, takeWhile_ne_append h]
  rfl

theorem encloses_of_not_mem (h : ':' ∉ content) (he : endpoints? content = some (start, stop)) :
    Encloses content start stop := by
  rw [endpoints?_of_not_mem h] at he
  obtain ⟨index, hindex, he⟩ := Option.bind_eq_some_iff.1 he
  obtain ⟨hpads, htext⟩ := endpoint?_eq_some.1 hindex
  split at he
  · next hdigit =>
    obtain ⟨rfl, rfl⟩ := Prod.mk.inj (Option.some.inj he)
    exact .index hpads htext (List.any_eq_true.1 hdigit)
  · exact absurd he nofun

theorem encloses_append {front back : List Char} (h : ':' ∉ front)
    (he : endpoints? (front ++ ':' :: back) = some (start, stop)) :
    Encloses (front ++ ':' :: back) start stop := by
  rw [endpoints?_append h] at he
  obtain ⟨start, hstart, he⟩ := Option.bind_eq_some_iff.1 he
  obtain ⟨stop, hstop, he⟩ := Option.bind_eq_some_iff.1 he
  obtain ⟨rfl, rfl⟩ := Prod.mk.inj (Option.some.inj he)
  obtain ⟨hfront, hstart⟩ := endpoint?_eq_some.1 hstart
  obtain ⟨hback, hstop⟩ := endpoint?_eq_some.1 hstop
  exact .range hfront hstart hback hstop

theorem endpoints?_eq_some :
    endpoints? content = some (start, stop) ↔ Encloses content start stop := by
  constructor
  · intro h
    cases hdrop : content.dropWhile (· != ':') with
    | nil =>
      have hmem : ':' ∉ content := fun hc =>
        bne_iff_ne.1 (List.dropWhile_eq_nil_iff.1 hdrop _ hc) rfl
      exact encloses_of_not_mem hmem h
    | cons d back =>
      obtain rfl := head_of_dropWhile_ne hdrop
      rw [eq_append_of_dropWhile_ne hdrop] at h ⊢
      exact encloses_append not_mem_takeWhile_ne h
  · intro h
    cases h with
    | index hpads htext hdigit =>
      rw [endpoints?_of_not_mem (hpads.not_mem htext (by decide)),
        endpoint?_eq_some.2 ⟨hpads, htext⟩]
      exact if_pos (List.any_eq_true.2 hdigit)
    | range hfront hstart hback hstop =>
      rw [endpoints?_append (hfront.not_mem hstart (by decide)),
        endpoint?_eq_some.2 ⟨hfront, hstart⟩, endpoint?_eq_some.2 ⟨hback, hstop⟩]
      rfl

/-- A suffix holds no opening bracket of its own. -/
theorem Encloses.not_mem (h : Encloses content start stop) : '[' ∉ content := by
  cases h with
  | index hpads htext hdigit => exact hpads.not_mem htext (by decide)
  | range hfront hstart hback hstop =>
    rw [List.mem_append, List.mem_cons]
    rintro (h | h | h)
    · exact hfront.not_mem hstart (by decide) h
    · exact absurd h (by decide)
    · exact hback.not_mem hstop (by decide) h

end Content

section Bracketed

variable {token name content start stop : List Char}

theorem bracketed?_eq_some : bracketed? token = some (name, content) ↔
    token = name ++ '[' :: (content ++ [']']) ∧ '[' ∉ content := by
  constructor
  · intro h
    unfold bracketed? at h
    split at h
    · next before hreverse =>
      split at h
      · next rest hdrop =>
        obtain ⟨rfl, rfl⟩ := Prod.mk.inj (Option.some.inj h)
        refine ⟨?_, fun hc => not_mem_takeWhile_ne (List.mem_reverse.1 hc)⟩
        rw [← token.reverse_reverse, hreverse, eq_append_of_dropWhile_ne hdrop]
        simp [takeWhile_ne_append not_mem_takeWhile_ne]
      · exact absurd h nofun
    · exact absurd h nofun
  · rintro ⟨rfl, h⟩
    have hreverse : (name ++ '[' :: (content ++ [']'])).reverse =
        ']' :: (content.reverse ++ '[' :: name.reverse) := by simp
    have hmem : '[' ∉ content.reverse := mt List.mem_reverse.1 h
    unfold bracketed?
    rw [hreverse]
    simp only [dropWhile_ne_append hmem, takeWhile_ne_append hmem, List.reverse_reverse]

theorem suffixed_iff : Suffixed token name start stop ↔
    ∃ content, bracketed? token = some (name, content)
      ∧ endpoints? content = some (start, stop) := by
  refine exists_congr fun content => ?_
  rw [bracketed?_eq_some, endpoints?_eq_some]
  exact ⟨fun h => ⟨⟨h.1, h.2.not_mem⟩, h.2⟩, fun h => ⟨h.1.1, h.2⟩⟩

end Bracketed

section Reading

variable {token : String} {text : List Char}

theorem readEndpoint_eq_ok {a : Option Int} :
    readEndpoint token text = .ok a ↔ Stands text a := by
  unfold readEndpoint
  constructor
  · intro h
    split at h
    · next hempty =>
      obtain rfl := List.isEmpty_iff.1 hempty
      obtain rfl := Except.ok.inj h
      exact .nil
    · split at h
      · next n hn =>
        obtain rfl := Except.ok.inj h
        obtain ⟨hinteger, hrange⟩ := readInteger?_eq_some.1 hn
        exact .integer hinteger hrange
      · exact absurd h nofun
  · intro h
    cases h with
    | nil => rfl
    | integer h hn =>
      have hread := readInteger?_eq_some.2 ⟨h, hn⟩
      have hne : ¬ text.isEmpty := fun hempty => by
        rw [List.isEmpty_iff.1 hempty] at hread
        exact absurd hread nofun
      rw [if_neg hne, hread]

theorem readEndpoint_eq_error {f : Fault} :
    readEndpoint token text = .error f ↔ Unreadable text ∧ f = .invalidIndex token := by
  unfold readEndpoint Unreadable
  constructor
  · intro h
    split at h
    · exact absurd h nofun
    · next hempty =>
      split at h
      · exact absurd h nofun
      · next hnone =>
        refine ⟨⟨mt List.isEmpty_iff.2 hempty, fun n hn hrange => ?_⟩, (Except.error.inj h).symm⟩
        exact absurd (hnone.symm.trans (readInteger?_eq_some.2 ⟨hn, hrange⟩)) nofun
  · rintro ⟨⟨hne, hnot⟩, rfl⟩
    rw [if_neg (mt List.isEmpty_iff.1 hne)]
    cases hread : readInteger? text with
    | none => rfl
    | some n =>
      obtain ⟨hn, hrange⟩ := readInteger?_eq_some.1 hread
      exact absurd hrange (hnot n hn)

variable {name start stop : List Char}

theorem ofToken?_of_suffixed (h : Suffixed token.toList name start stop) : ofToken? token = do
    let a ← readEndpoint token start
    let b ← readEndpoint token stop
    return some (String.ofList (strip name), ofPositions a b) := by
  obtain ⟨content, hbracketed, hendpoints⟩ := suffixed_iff.1 h
  unfold ofToken?
  rw [hbracketed]
  dsimp only
  rw [hendpoints]

theorem ofToken?_of_not_suffixed (h : ∀ name start stop, ¬ Suffixed token.toList name start stop) :
    ofToken? token = .ok none := by
  unfold ofToken?
  cases hbracketed : bracketed? token.toList with
  | none => rfl
  | some parts =>
    obtain ⟨name, content⟩ := parts
    dsimp only
    cases hendpoints : endpoints? content with
    | none => rfl
    | some texts =>
      exact absurd (suffixed_iff.2 ⟨content, hbracketed, hendpoints⟩) (h name texts.1 texts.2)

theorem spells_ofToken? (token : String) : Spells token (ofToken? token) := by
  by_cases h : ∃ name start stop, Suffixed token.toList name start stop
  · obtain ⟨name, start, stop, h⟩ := h
    rw [ofToken?_of_suffixed h]
    cases ha : readEndpoint token start with
    | error f =>
      obtain ⟨hbad, rfl⟩ := readEndpoint_eq_error.1 ha
      exact .unreadable h (.inl hbad)
    | ok a =>
      cases hb : readEndpoint token stop with
      | error f =>
        obtain ⟨hbad, rfl⟩ := readEndpoint_eq_error.1 hb
        exact .unreadable h (.inr hbad)
      | ok b => exact .subset h (readEndpoint_eq_ok.1 ha) (readEndpoint_eq_ok.1 hb)
  · have h : ∀ name start stop, ¬ Suffixed token.toList name start stop :=
      fun name start stop hs => h ⟨name, start, stop, hs⟩
    rw [ofToken?_of_not_suffixed h]
    exact .plain h

theorem Spells.eq_ofToken? {r : Except Fault (Option (String × Subset))} (h : Spells token r) :
    ofToken? token = r := by
  cases h with
  | plain h => exact ofToken?_of_not_suffixed h
  | unreadable h hends =>
    rw [ofToken?_of_suffixed h]
    cases ha : readEndpoint token _ with
    | error f =>
      obtain ⟨-, rfl⟩ := readEndpoint_eq_error.1 ha
      rfl
    | ok a =>
      have hstop := hends.resolve_left fun hbad =>
        absurd ((readEndpoint_eq_error.2 ⟨hbad, rfl⟩).symm.trans ha) nofun
      rw [readEndpoint_eq_error.2 ⟨hstop, rfl⟩]
      rfl
  | subset h ha hb =>
    rw [ofToken?_of_suffixed h, readEndpoint_eq_ok.2 ha, readEndpoint_eq_ok.2 hb]
    rfl

end Reading

/-- Neither end of the text is blank. -/
def Unpadded (s : String) : Prop :=
  (∀ c ∈ s.toList.head?, isBlank c = false) ∧ ∀ c ∈ s.toList.getLast?, isBlank c = false

section Written

variable {name s t : String} {a b : Option Int}

theorem isEndpoint_toString (n : Int) : IsEndpoint (toString n).toList := by
  have hdigits : ∀ n, ∀ c ∈ Nat.toDigits 10 n, isDecimalDigit c :=
    fun n c hc => isDecimalDigit_of_isDigit (isDigit_toDigits c hc)
  cases n with
  | ofNat n =>
    have hlist : (toString (Int.ofNat n)).toList = Nat.toDigits 10 n := toList_toString_natCast n
    rw [hlist]
    exact .bare (hdigits n)
  | negSucc n =>
    rw [toList_toString_negSucc]
    exact .minus (hdigits (n + 1))

theorem exists_pads_of_writes (h : Writes s a) :
    ∃ text, Pads text s.toList ∧ IsEndpoint text ∧ Stands text a := by
  cases h with
  | blank h =>
    have hpads : Pads [] (s.toList ++ [] ++ []) := .mk (List.all_eq_true.1 h) nofun
    rw [List.append_nil, List.append_nil] at hpads
    exact ⟨[], hpads, .bare nofun, .nil⟩
  | @decimal before behind n hbefore hn hbehind =>
    have hinteger := readInteger?_eq_some.1 (readInteger?_toString hn)
    refine ⟨(toString n).toList, ?_, isEndpoint_toString n, .integer hinteger.1 hn⟩
    rw [String.toList_append, String.toList_append]
    exact .mk (List.all_eq_true.1 hbefore) (List.all_eq_true.1 hbehind)

theorem exists_isDecimalDigit {text : List Char} {n : Int} (h : IsInteger text n) :
    ∃ c ∈ text, isDecimalDigit c := by
  have hdigits : ∀ {ds : List Char} {m : Nat}, IsNumeral ds m → ∃ c ∈ ds, isDecimalDigit c := by
    rintro ds _ ⟨hne, hdigits⟩
    obtain ⟨c, cs, rfl⟩ := List.exists_cons_of_ne_nil hne
    exact ⟨c, .head _, isDecimalDigit_of_isDigit (hdigits c (.head _))⟩
  cases h with
  | bare h => exact hdigits h
  | plus h | minus h =>
    obtain ⟨c, hc, hd⟩ := hdigits h
    exact ⟨c, .tail _ hc, hd⟩

theorem strip_of_unpadded (h : Unpadded name) : String.ofList (strip name.toList) = name := by
  rw [strip_eq_self h.1 h.2, String.ofList_toList]

theorem spells_written {content : String} {start stop : List Char} (hname : Unpadded name)
    (h : Encloses content.toList start stop) (ha : Stands start a) (hb : Stands stop b) :
    Spells (name ++ "[" ++ content ++ "]") (.ok (some (name, ofPositions a b))) := by
  have htoken : (name ++ "[" ++ content ++ "]").toList =
      name.toList ++ '[' :: (content.toList ++ [']']) := by simp
  have hspells := Spells.subset ⟨content.toList, htoken, h⟩ ha hb
  rwa [strip_of_unpadded hname] at hspells

theorem spells_index {n : Int} (hname : Unpadded name) (hs : Writes s (some n)) :
    Spells (name ++ "[" ++ s ++ "]") (.ok (some (name, single n))) := by
  obtain ⟨text, hpads, htext, hstands⟩ := exists_pads_of_writes hs
  obtain ⟨hinteger, -⟩ : IsInteger text n ∧ inSigned64 n := by
    cases hstands with
    | integer h hn => exact ⟨h, hn⟩
  exact spells_written hname (.index hpads htext (exists_isDecimalDigit hinteger)) hstands hstands

theorem spells_range (hname : Unpadded name) (hs : Writes s a) (ht : Writes t b) :
    Spells (name ++ "[" ++ (s ++ ":" ++ t) ++ "]") (.ok (some (name, ofPositions a b))) := by
  obtain ⟨start, hfront, hstart, ha⟩ := exists_pads_of_writes hs
  obtain ⟨stop, hback, hstop, hb⟩ := exists_pads_of_writes ht
  have hcontent : (s ++ ":" ++ t).toList = s.toList ++ ':' :: t.toList := by simp
  exact spells_written hname (hcontent ▸ .range hfront hstart hback hstop) ha hb

end Written

end JsonSelect.Subset
