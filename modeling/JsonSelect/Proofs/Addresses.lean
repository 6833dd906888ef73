import JsonSelect.Proofs.Words
import JsonSelect.Selector.Pick

/-!
# Addresses and their paths

An address that is written from words holds its dots outside brackets where two words meet, so that
cutting it at its marks gives the words back (`Address.runs_ofPath`), and no two lists of words have
one address (`Address.ofPath_injective`). One word more is one segment more
(`Address.ofPath_concat`).
-/

namespace JsonSelect

open Outline

/-- The runs of a text, without the marks between them. -/
def Outline.runs : Outline → List String
  | last run => [String.ofList run]
  | marked run _ _ rest => String.ofList run :: rest.runs

namespace Address

/-- A list of words. -/
def IsPath (path : List String) : Prop := ∀ t ∈ path, IsWord t.toList

theorem ofPath_nil : ofPath [] = "" := rfl

theorem ofPath_singleton (t : String) : ofPath [t] = t := String.intercalate_singleton

theorem ofPath_cons {path : List String} (h : path ≠ []) (t : String) :
    ofPath (t :: path) = t ++ "." ++ ofPath path :=
  String.intercalate_cons_of_ne_nil h

theorem isPath_nil : IsPath [] := fun _ ht => absurd ht List.not_mem_nil

theorem isPath_cons {t : String} {path : List String} :
    IsPath (t :: path) ↔ IsWord t.toList ∧ IsPath path :=
  List.forall_mem_cons

theorem isPath_append {path path' : List String} :
    IsPath (path ++ path') ↔ IsPath path ∧ IsPath path' :=
  List.forall_mem_append

theorem isPath_singleton {t : String} : IsPath [t] ↔ IsWord t.toList :=
  List.forall_mem_singleton

theorem toList_ofPath_cons {path : List String} (h : path ≠ []) (t : String) :
    (ofPath (t :: path)).toList = t.toList ++ '.' :: (ofPath path).toList := by
  rw [ofPath_cons h]
  simp

theorem ofPath_eq_empty {path : List String} (h : IsPath path) : ofPath path = "" ↔ path = [] := by
  refine ⟨fun he => ?_, fun hp => by rw [hp, ofPath_nil]⟩
  cases path with
  | nil => rfl
  | cons t path =>
    have ht := (isPath_cons.1 h).1.ne_nil
    have hl : (ofPath (t :: path)).toList = [] := by rw [he, String.toList_empty]
    cases path with
    | nil => exact absurd (by rwa [ofPath_singleton] at hl) ht
    | cons u path =>
      rw [toList_ofPath_cons (List.cons_ne_nil _ _)] at hl
      simp at hl

theorem ofPath_concat {path : List String} (h : IsPath path) (t : String) :
    ofPath (path ++ [t]) = child (ofPath path) t := by
  unfold child
  by_cases hp : path = []
  · subst hp
    rw [List.nil_append, ofPath_singleton, ofPath_nil, if_pos (String.isEmpty_iff.2 rfl)]
  · have hne : (ofPath path).isEmpty = false := by simp [ofPath_eq_empty h, hp]
    rw [hne, if_neg Bool.false_ne_true, ofPath, ofPath,
      String.intercalate_append_of_ne_nil hp (List.cons_ne_nil _ _), String.intercalate_singleton]

/-- Cutting an address at its marks gives its words back. -/
theorem runs_ofPath : ∀ {path : List String}, IsPath path → path ≠ [] → ∀ (offset : Nat),
    (scan 0 offset (ofPath path).toList).runs = path
  | [], _, hne, _ => absurd rfl hne
  | [t], h, _, offset => by
    rw [ofPath_singleton, scan_of_unmarked (isPath_singleton.1 h).clean.unmarked, runs,
      String.ofList_toList]
  | t :: u :: path, h, _, offset => by
    obtain ⟨ht, hp⟩ := isPath_cons.1 h
    rw [toList_ofPath_cons (List.cons_ne_nil _ _), scan_marked ht.clean rfl, runs,
      String.ofList_toList, runs_ofPath hp (List.cons_ne_nil _ _)]

theorem ofPath_injective {path path' : List String} (h : IsPath path) (h' : IsPath path')
    (he : ofPath path = ofPath path') : path = path' := by
  by_cases hp : path = []
  · subst hp
    exact ((ofPath_eq_empty h').1 he.symm).symm
  · have hp' : path' ≠ [] := fun hn =>
      hp ((ofPath_eq_empty h).1 (he.trans (by rw [hn, ofPath_nil])))
    rw [← runs_ofPath h hp 0, he, runs_ofPath h' hp']

end Address

end JsonSelect
